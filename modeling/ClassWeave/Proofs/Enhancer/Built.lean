import ClassWeave.Enhancer.Registry
import ClassWeave.Proofs.Enhancer.Stamping
/-!
# Enhancer -- what the built-in passes make of a class

Every pass that is built of a registration of a built-in kind adds one
attribute, unless there is one of its name: a fixed one, or the digest of the
compiled octets (`EnhancerSpec.pass`, `Registry.chain_builtin`). So a chain of
them adjoins one attribute after another to the class it is given, and keeps
its pool complete (`Chain.applyFrom_built`). Behind them all comes the marker,
which is added whether there is one or not (`Chain.apply_built`). If the
class had none, the marker that is read from what comes out is that of the
first pass that adds one, and else the one that the chain wrote
(`Chain.marker?_built`).
-/


namespace ClassWeave

/-! ## Registrations -/

namespace EnhancerSpec

/-- The name of the attribute that the pass of a registration adds. -/
def addedName (s : EnhancerSpec) : String :=
  if s.kind = "reload-stamp" then Pass.reloadStampAttribute else (s.text? "attribute").getD ""

/-- The payload that it has for a unit's compiled octets. -/
def payload (s : EnhancerSpec) (compiled : Bytes) : Bytes :=
  if s.kind = "reload-stamp" then Utf8.encode (Bytes.sha256Hex compiled)
  else Utf8.encode ((s.text? "payload").getD "")

/-- The attribute that the pass of a registration adds. -/
def addition (s : EnhancerSpec) (compiled : Bytes) : ClassFile.Attribute :=
  ⟨s.addedName, s.payload compiled⟩

/-- The pass of a registration of a built-in kind. -/
def pass (s : EnhancerSpec) : Pass := .adding s.id s.addedName fun v => s.payload v.compiled

end EnhancerSpec

namespace Registry

variable {s : EnhancerSpec} {specs : List EnhancerSpec} {p : Pass} {chain : Chain}

/-- There are two built-in kinds. -/
theorem lookup_builtin {kind : String} {build : PassBuilder}
    (h : builtin.lookup kind = some build) :
    kind = "attribute" ∧ build = buildAttribute ∨
      kind = "reload-stamp" ∧ build = buildReloadStamp := by
  have hbuiltin : builtin = [("attribute", buildAttribute), ("reload-stamp", buildReloadStamp)] :=
    rfl
  rw [hbuiltin, List.lookup_cons] at h
  split at h
  · next hkind => exact .inl ⟨eq_of_beq hkind, (Option.some.inj h).symm⟩
  · rw [List.lookup_cons] at h
    split at h
    · next hkind => exact .inr ⟨eq_of_beq hkind, (Option.some.inj h).symm⟩
    · cases h

/-- **A built-in pass adds the attribute of its registration.** -/
theorem build_builtin (h : builtin.build s = .ok p) : p = s.pass := by
  unfold build at h
  split at h
  · cases h
  next build hlookup =>
  rcases lookup_builtin hlookup with ⟨hkind, rfl⟩ | ⟨hkind, rfl⟩
  · have hother : s.kind ≠ "reload-stamp" := by
      rw [hkind]
      decide
    rcases hname : s.text? "attribute" with _ | name
    · simp only [buildAttribute, hname] at h
      cases h
    · simp only [buildAttribute, hname] at h
      split at h
      · cases h
      · rw [← Except.ok.inj h]
        simp only [Pass.attributeTag, EnhancerSpec.pass, EnhancerSpec.addedName,
          EnhancerSpec.payload, if_neg hother, hname, Option.getD_some]
  · rw [← Except.ok.inj h]
    simp only [Pass.reloadStamp, EnhancerSpec.pass, EnhancerSpec.addedName, EnhancerSpec.payload,
      if_pos hkind]

/-- The chain behind some names is that of the passes of its registrations. -/
theorem chainAfter_builtin {taken : List String} (h : builtin.chainAfter taken specs = .ok chain) :
    chain = specs.map EnhancerSpec.pass := by
  induction specs generalizing taken chain with
  | nil => exact (Except.ok.inj h).symm
  | cons s specs ih =>
    rw [chainAfter] at h
    split at h
    · cases h
    rcases hbuild : builtin.build s with e | p
    · rw [hbuild] at h
      cases h
    rcases hrest : builtin.chainAfter (s.name :: taken) specs with e | rest
    · rw [hbuild, hrest] at h
      cases h
    rw [hbuild, hrest] at h
    rw [← Except.ok.inj h, List.map_cons, build_builtin hbuild, ih hrest]

/-- **A chain of built-in kinds** has the passes of its registrations, in
their order. -/
theorem chain_builtin (h : builtin.chain specs = .ok chain) : chain = specs.map EnhancerSpec.pass :=
  chainAfter_builtin h

end Registry

/-! ## One attribute after another -/

namespace ClassFile

/-- A class with an attribute behind its own, unless it has one of that
name. -/
def adjoin (c : ClassFile) (a : Attribute) : ClassFile :=
  if c.hasAttribute a.name then c else { c with attributes := c.attributes ++ [a] }

/-- An attribute that is adjoined is found if none of its name was there. -/
theorem find?_adjoin (c : ClassFile) (a : Attribute) (name : String) :
    (c.adjoin a).find? name = (c.find? name).or (if a.name = name then some a else none) := by
  rw [adjoin]
  split
  · next hhas =>
    obtain ⟨b, hb⟩ := Option.isSome_iff_exists.1 hhas
    split
    · next hname => rw [← hname, hb, Option.some_or]
    · rw [Option.or_none]
  · exact c.find?_concat a name

/-- **Of the attributes that are adjoined** the first of a name is found, if
none of that name was there. -/
theorem find?_foldl_adjoin (c : ClassFile) (as : List Attribute) (name : String) :
    (as.foldl adjoin c).find? name = (c.find? name).or (as.find? fun a => a.name == name) := by
  induction as generalizing c with
  | nil => rw [List.foldl_nil, List.find?_nil, Option.or_none]
  | cons a as ih =>
    rw [List.foldl_cons, ih, find?_adjoin, Option.or_assoc]
    by_cases hname : a.name = name
    · have hfound : (a.name == name) = true := beq_iff_eq.2 hname
      rw [if_pos hname, Option.some_or, List.find?_cons, hfound]
    · have hother : (a.name == name) = false := beq_eq_false_iff_ne.2 hname
      rw [if_neg hname, Option.none_or, List.find?_cons, hother]

end ClassFile

/-! ## Passes that add an attribute -/

namespace Pass

variable {id : EnhancerId} {name : String} {payload : PassView → Bytes} {v : PassView}
  {c : ClassFile} {bytes : Bytes} {cause : ClassFile.FormatError}

theorem classFile_view (hc : ClassFile.parse v.current = .ok c) : v.classFile = .ok c := by
  rw [PassView.classFile, hc]
  rfl

theorem run_adding_present (hc : ClassFile.parse v.current = .ok c)
    (hhas : c.hasAttribute name = true) : (adding id name payload).run v = .ok none := by
  simp only [adding, classFile_view hc, bind, Except.bind, hhas]
  rfl

/-- Where it is not there, the pass gives the octets with the attribute. -/
theorem run_adding_ok (hc : ClassFile.parse v.current = .ok c)
    (hhas : c.hasAttribute name = false)
    (hout : ClassFile.withAttribute v.current name (payload v) = .ok bytes) :
    (adding id name payload).run v = .ok (some bytes) := by
  simp only [adding, classFile_view hc, bind, Except.bind, hhas, hout]
  rfl

/-- If the class does not take the attribute, the pass fails with the reason
why. -/
theorem run_adding_rejected (hc : ClassFile.parse v.current = .ok c)
    (hhas : c.hasAttribute name = false)
    (hout : ClassFile.withAttribute v.current name (payload v) = .error cause) :
    (adding id name payload).run v = .error (.rejected cause) := by
  simp only [adding, classFile_view hc, bind, Except.bind, hhas, hout]
  rfl

end Pass

/-! ## Whole chains -/

namespace Chain

open ClassFile (Layout)

variable {specs : List EnhancerSpec} {chain : Chain} {u v : ClassUnit} {l : Layout}

/-- **What a pass that adds an attribute makes of a unit** with a complete
pool: one with the attribute adjoined, and a complete pool again. -/
theorem applyPass_adding {id : EnhancerId} {name : String} {payload : PassView → Bytes}
    (hread : Layout.read u.current = .ok l) (hcomplete : l.IsComplete)
    (h : applyPass (.adding id name payload) u = .ok v) :
    ∃ l', Layout.read v.current = .ok l' ∧ l'.IsComplete ∧ v.compiled = u.compiled ∧
      l'.view = l.view.adjoin ⟨name, payload ⟨u.name, u.compiled, u.current⟩⟩ := by
  have hc : ClassFile.parse u.current = .ok l.view := ClassFile.parse_ok.2 ⟨l, hread, rfl⟩
  rw [ClassFile.adjoin]
  rcases hhas : l.view.hasAttribute name with _ | _
  · rcases hout : ClassFile.withAttribute u.current name
        (payload ⟨u.name, u.compiled, u.current⟩) with cause | out
    · rw [applyPass, Pass.run_adding_rejected hc hhas hout] at h
      cases h
    obtain ⟨l', hread', hcomplete', hview⟩ := ClassFile.complete_withAttribute hread hout hcomplete
    have hc' : ClassFile.parse out = .ok l'.view := ClassFile.parse_ok.2 ⟨l', hread', rfl⟩
    rw [applyPass, Pass.run_adding_ok hc hhas hout] at h
    simp only [hc'] at h
    obtain rfl := Except.ok.inj h
    exact ⟨l', hread', hcomplete', rfl, hview⟩
  · rw [applyPass, Pass.run_adding_present hc hhas] at h
    obtain rfl := Except.ok.inj h
    exact ⟨l, hread, hcomplete, rfl, rfl⟩

/-- **What built-in passes make of a unit** with a complete pool, if none of
them fails: one with their attributes adjoined in order, and a complete pool
again. -/
theorem applyFrom_built (position : Nat) (calls : List PassCall)
    (hread : Layout.read u.current = .ok l) (hcomplete : l.IsComplete)
    (hok : (applyFrom position u calls (specs.map EnhancerSpec.pass)).error = none) :
    ∃ l', Layout.read (applyFrom position u calls (specs.map EnhancerSpec.pass)).unit.current =
        .ok l' ∧ l'.IsComplete ∧
      l'.view = (specs.map fun s => s.addition u.compiled).foldl ClassFile.adjoin l.view := by
  induction specs generalizing position u calls l with
  | nil => exact ⟨l, hread, hcomplete, rfl⟩
  | cons s specs ih =>
    simp only [List.map_cons, applyFrom] at hok ⊢
    rcases hpass : applyPass s.pass u with e | v
    · rw [hpass] at hok
      cases hok
    rw [hpass] at hok
    obtain ⟨k, hk, hkcomplete, hcompiled, hkview⟩ := applyPass_adding hread hcomplete hpass
    obtain ⟨l', hl', hcomplete', hview⟩ := ih (position + 1) _ hk hkcomplete hok
    refine ⟨l', hl', hcomplete', ?_⟩
    rw [hview, hcompiled, hkview]
    rfl

theorem error_applyFrom (hok : (chain.apply u).error = none) :
    (applyFrom 0 u [] chain).error = none := by
  rcases herr : (applyFrom 0 u [] chain).error with _ | e
  · rfl
  · simp only [apply, herr] at hok
    cases hok

/-- **What a chain of built-in kinds makes of a unit** with a complete pool,
if it does not fail: a class with the attributes of its registrations adjoined
in order, and the marker behind them. -/
theorem apply_built (hchain : Registry.builtin.chain specs = .ok chain)
    (hread : Layout.read u.current = .ok l) (hcomplete : l.IsComplete)
    (hok : (chain.apply u).error = none) :
    ∃ out l', (chain.apply u).unit = u.install out ∧ Layout.read out = .ok l' ∧ l'.IsComplete ∧
      ∃ c, c = (specs.map fun s => s.addition u.compiled).foldl ClassFile.adjoin l.view ∧
        l'.view = { c with
          attributes := c.attributes ++ [⟨MarkerRecord.attributeName, (chain.record u).encode⟩] } := by
  obtain ⟨out, hstamp, hunit⟩ := apply_ok hok
  have hpasses := error_applyFrom hok
  rw [Registry.chain_builtin hchain] at hpasses
  obtain ⟨k, hk, hkcomplete, hkview⟩ := applyFrom_built 0 [] hread hcomplete hpasses
  rw [← Registry.chain_builtin hchain] at hk
  obtain ⟨l', hl', hcomplete', hview⟩ := ClassFile.complete_withAttribute hk hstamp hkcomplete
  exact ⟨out, l', hunit, hl', hcomplete', k.view, hkview, hview⟩

/-- **The marker that is read from what a chain of built-in kinds makes** of a
class without one: that of the first registration that adds an attribute of
the marker's name, and else the one that the chain wrote. -/
theorem marker?_built (hchain : Registry.builtin.chain specs = .ok chain)
    (hread : Layout.read u.current = .ok l) (hcomplete : l.IsComplete)
    (hunmarked : l.view.isMarked = false) (hok : (chain.apply u).error = none) :
    ∃ out c r, (chain.apply u).unit = u.install out ∧ ClassFile.parse out = .ok c ∧
      c.marker? = some r ∧ r = .decode
        (((specs.find? fun s => s.addedName == MarkerRecord.attributeName).map fun s =>
          s.payload u.compiled).getD (chain.record u).encode) := by
  obtain ⟨out, l', hunit, hl', -, c, hc, hview⟩ := apply_built hchain hread hcomplete hok
  refine ⟨out, l'.view, _, hunit, ClassFile.parse_ok.2 ⟨l', hl', rfl⟩, ?_, rfl⟩
  rw [ClassFile.marker?, hview, ClassFile.find?_concat, hc, ClassFile.find?_foldl_adjoin,
    ClassFile.find?_unmarked hunmarked, Option.none_or, List.find?_map, if_pos rfl]
  have hsame : ((fun a : ClassFile.Attribute => a.name == MarkerRecord.attributeName) ∘
      fun s : EnhancerSpec => s.addition u.compiled) =
    fun s => s.addedName == MarkerRecord.attributeName := rfl
  rw [hsame]
  rcases hfind : specs.find? fun s => s.addedName == MarkerRecord.attributeName with _ | s
  · rw [hfind]
    rfl
  · rw [hfind]
    rfl

end Chain

end ClassWeave
