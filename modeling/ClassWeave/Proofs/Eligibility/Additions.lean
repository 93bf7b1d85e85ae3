import ClassWeave.Proofs.ClassFile.Capacity
import ClassWeave.Proofs.Eligibility
import ClassWeave.Proofs.Exemption
/-!
# Eligibility -- attributes that are added

A unit that is written in place is judged by its name, its header and its
first attribute of the marker's name (`classify_inPlace_of_parse`). Behind
the attributes of a class more of them change none of the three, but for
the marker on a class that had none (`inPlaceVerdict_added`). So what only
adds attributes leaves the verdict as it was, and a marker, whatever is in
it, turns away what was to be enhanced and nothing else: this holds for one
attribute (`classify_withAttribute`) and for any number of them
(`classify_addAll`).
-/


namespace ClassWeave

namespace ClassFile

/-- The marker of a class with more attributes is its own, if it had one. -/
theorem marker?_append (c : ClassFile) (as : List Attribute) :
    marker? { c with attributes := c.attributes ++ as } =
      c.marker?.or ((as.find? fun a => a.name == MarkerRecord.attributeName).map
        fun a => MarkerRecord.decode a.data) := by
  rw [marker?, find?, List.find?_append, marker?, find?, Option.map_or]

end ClassFile

namespace EligibilityFilter

variable {f : EligibilityFilter} {t t' : FileTree} {u : ClassUnit} {c : ClassFile}
  {as : List ClassFile.Attribute} {name : String} {payload out : Bytes}

/-- **The verdict on a class that is written in place**: whether it is exempt
comes first, and whether it has the marker second. -/
def inPlaceVerdict (f : EligibilityFilter) (name : String) (c : ClassFile) : Verdict × List Event :=
  match exemption? f.reserved name (some c.header) with
  | some reason => (.exempt reason, [])
  | none =>
    match c.marker? with
    | some r => (.alreadyEnhanced .marker, f.compare name r)
    | none => (.proceed, [])

/-- A filter comes to that verdict, whatever else is in the tree. -/
theorem classify_inPlace_of_parse (hplace : u.location.isInPlace = true)
    (hc : ClassFile.parse u.compiled = .ok c) :
    f.classify t u = .ok (f.inPlaceVerdict u.name c) := by
  have hname : nameExemption? ⟨f.reserved, []⟩ u.name = f.nameExemption? u.name := rfl
  rw [classify, inPlaceVerdict, exemption?, hname]
  rcases f.nameExemption? u.name with _ | reason
  · simp only [hc, structuralExemption?_eq, Option.bind_some, freshCopy?_inPlace hplace]
    rcases headerExemption? c.header with _ | reason
    · rcases c.marker? with _ | r <;> rfl
    · rfl
  · rfl

/-- **What more attributes do to the verdict.** Without the marker among them
it stays, with its warnings; with it among them a class that was to be
enhanced is found enhanced, and any other is judged as before. -/
theorem inPlaceVerdict_added (f : EligibilityFilter) (name : String) (c : ClassFile)
    (as : List ClassFile.Attribute) :
    (MarkerRecord.attributeName ∉ as.map ClassFile.Attribute.name →
      f.inPlaceVerdict name { c with attributes := c.attributes ++ as } = f.inPlaceVerdict name c) ∧
      (MarkerRecord.attributeName ∈ as.map ClassFile.Attribute.name →
        ((f.inPlaceVerdict name c).1 = .proceed →
          (f.inPlaceVerdict name { c with attributes := c.attributes ++ as }).1 =
            .alreadyEnhanced .marker) ∧
        ((f.inPlaceVerdict name c).1 ≠ .proceed →
          f.inPlaceVerdict name { c with attributes := c.attributes ++ as } =
            f.inPlaceVerdict name c)) := by
  have hheader : ClassFile.header { c with attributes := c.attributes ++ as } = c.header := rfl
  simp only [inPlaceVerdict, hheader, ClassFile.marker?_append]
  rcases exemption? f.reserved name (some c.header) with _ | reason
  swap
  · exact ⟨fun _ => rfl, fun _ => ⟨nofun, fun _ => rfl⟩⟩
  rcases c.marker? with _ | r
  swap
  · exact ⟨fun _ => rfl, fun _ => ⟨nofun, fun _ => rfl⟩⟩
  -- a class that was to be enhanced: the first marker among the attributes counts
  simp only [Option.none_or]
  constructor
  · intro hnot
    have hnone : (as.find? fun a => a.name == MarkerRecord.attributeName) = none := by
      rw [List.find?_eq_none]
      intro a ha hname
      exact hnot (eq_of_beq hname ▸ List.mem_map_of_mem ha)
    rw [hnone]
    rfl
  · intro hmem
    obtain ⟨a, ha, hname⟩ := List.mem_map.1 hmem
    obtain ⟨first, hfirst⟩ : ∃ first,
        (as.find? fun a => a.name == MarkerRecord.attributeName) = some first :=
      Option.isSome_iff_exists.1 (List.find?_isSome.2 ⟨a, ha, by rw [hname, beq_self_eq_true]⟩)
    rw [hfirst]
    exact ⟨fun _ => rfl, fun hne => absurd rfl hne⟩

/-- **An attribute that is added leaves the verdict as it was**, unless it is
the marker; and the marker, whatever is in it, leaves a unit exempt that is,
and closes one that was to be enhanced. This is for units that are written
in place and have a complete pool. -/
theorem classify_withAttribute (t t' : FileTree) (hplace : u.location.isInPlace = true)
    (hc : ClassFile.parse u.compiled = .ok c) (hcomplete : ClassFile.PoolComplete u.compiled)
    (hout : ClassFile.withAttribute u.compiled name payload = .ok out) :
    ∃ v events v' events', f.classify t u = .ok (v, events) ∧
      f.classify t' { u with compiled := out } = .ok (v', events') ∧
      (name ≠ MarkerRecord.attributeName → v' = v ∧ events' = events) ∧
      (name = MarkerRecord.attributeName →
        (∀ reason, v = .exempt reason → v' = .exempt reason) ∧
        (v = .proceed → v' = .alreadyEnhanced .marker) ∧
        (v = .alreadyEnhanced .marker → v' = .alreadyEnhanced .marker)) := by
  obtain ⟨l, hread, rfl⟩ := ClassFile.parse_ok.1 hc
  obtain ⟨l', hread', -, hview⟩ :=
    ClassFile.complete_withAttribute hread hout (hcomplete l hread)
  have hbefore : f.classify t u = .ok (f.inPlaceVerdict u.name l.view) :=
    classify_inPlace_of_parse hplace hc
  have hafter : f.classify t' { u with compiled := out } = .ok (f.inPlaceVerdict u.name l'.view) :=
    classify_inPlace_of_parse (u := { u with compiled := out }) hplace
      (ClassFile.parse_ok.2 ⟨l', hread', rfl⟩)
  obtain ⟨hkept, hmarked⟩ := f.inPlaceVerdict_added u.name l.view [⟨name, payload⟩]
  rw [← hview] at hkept hmarked
  obtain ⟨⟨v, events⟩, hv⟩ : ∃ r, f.inPlaceVerdict u.name l.view = r := ⟨_, rfl⟩
  obtain ⟨⟨v', events'⟩, hv'⟩ : ∃ r, f.inPlaceVerdict u.name l'.view = r := ⟨_, rfl⟩
  rw [hv, hv'] at hkept hmarked
  refine ⟨v, events, v', events', hbefore.trans (by rw [hv]), hafter.trans (by rw [hv']), ?_, ?_⟩
  · intro hname
    exact Prod.mk.inj (hkept (by simpa using hname.symm))
  · intro hname
    obtain ⟨hclosed, hother⟩ := hmarked (by simp [hname])
    refine ⟨?_, hclosed, ?_⟩
    · rintro reason rfl
      exact (Prod.mk.inj (hother nofun)).1
    · rintro rfl
      exact (Prod.mk.inj (hother nofun)).1

/-- A unit with a class to be enhanced, a `long` at the end of its pool. -/
def wideUnit : ClassUnit :=
  .fresh "A" (.inPlace ⟨"A.class"⟩) (ClassFile.Layout.endingWide 5).encode

/-- A marker that is no text closes it. -/
theorem classify_withAttribute_garbled : ∃ out events,
    ClassFile.withAttribute wideUnit.compiled MarkerRecord.attributeName [0xff] = .ok out ∧
      classify ⟨[], []⟩ ⟨[], []⟩ wideUnit = .ok (.proceed, []) ∧
      classify ⟨[], []⟩ ⟨[], []⟩ { wideUnit with compiled := out } =
        .ok (.alreadyEnhanced .marker, events) := by
  have hc : ClassFile.parse wideUnit.compiled = .ok (ClassFile.Layout.endingWide 5).view := by decide
  have hproceed : classify ⟨[], []⟩ ⟨[], []⟩ wideUnit = .ok (.proceed, []) := by decide +kernel
  obtain ⟨out, hout⟩ : ∃ out, ClassFile.withAttribute wideUnit.compiled
      MarkerRecord.attributeName [0xff] = .ok out := ⟨_, rfl⟩
  obtain ⟨v, events, v', events', hv, hv', -, hmarker⟩ :=
    classify_withAttribute (f := ⟨[], []⟩) ⟨[], []⟩ ⟨[], []⟩ (by decide) hc (by decide) hout
  obtain ⟨rfl, -⟩ := Prod.mk.inj (Except.ok.inj (hproceed.symm.trans hv))
  exact ⟨out, events', hout, hproceed, (hmarker rfl).2.1 rfl ▸ hv'⟩

/-- **So do any number of attributes**, each added to what the last one made:
without the marker among those that are taken the verdict stays. -/
theorem classify_addAll (t t' : FileTree) (hplace : u.location.isInPlace = true)
    (hc : ClassFile.parse u.compiled = .ok c) (hcomplete : ClassFile.PoolComplete u.compiled)
    (hmarker : MarkerRecord.attributeName ∉
      (ClassFile.addAll u.compiled as).2.map ClassFile.Attribute.name) :
    f.classify t' { u with compiled := (ClassFile.addAll u.compiled as).1 } = f.classify t u := by
  obtain ⟨l, hread, rfl⟩ := ClassFile.parse_ok.1 hc
  obtain ⟨l', hread', hgrown⟩ := ClassFile.grown_addAll hread (hcomplete l hread) as
  have hc' := ClassFile.parse_ok.2 ⟨l', hread', rfl⟩
  rw [classify_inPlace_of_parse hplace hc,
    classify_inPlace_of_parse (u := { u with compiled := (ClassFile.addAll u.compiled as).1 })
      hplace hc', hgrown.view, (f.inPlaceVerdict_added u.name l.view _).1 hmarker]

end EligibilityFilter

end ClassWeave
