import ClassWeave.Eligibility
/-!
# Eligibility -- the verdict on what is not exempt

A unit that is exempt neither by its name nor by its structure is eligible
(`EligibilityFilter.Eligible`). Whether it was enhanced before is then all
that decides: its own marker comes first, and the copy at its output second
(`classify_eligible`), which counts if its marker has the digest of the
unit's octets (`classify_copy`). A class with a marker is never to be
enhanced again, and only an eligible one warns of it (`classify_marked`).
-/


namespace ClassWeave

namespace EligibilityFilter

variable {f : EligibilityFilter} {t : FileTree} {u : ClassUnit} {c c' : ClassFile}
  {r : MarkerRecord} {out : Bytes}

/-- **A unit that is not exempt**, neither by its name nor by its
structure. -/
structure Eligible (f : EligibilityFilter) (u : ClassUnit) : Prop where
  name : f.nameExemption? u.name = none
  structural : ∀ c, ClassFile.parse u.compiled = .ok c → structuralExemption? c = none

/-- Whether a unit is eligible can be told from its name and its octets. -/
instance decidableEligible (f : EligibilityFilter) (u : ClassUnit) : Decidable (f.Eligible u) :=
  decidable_of_iff (f.nameExemption? u.name = none ∧
    ∀ c ∈ (ClassFile.parse u.compiled).toOption, structuralExemption? c = none) <| by
    rcases hparse : ClassFile.parse u.compiled with e | c
    · exact ⟨fun h => ⟨h.1, fun c hc => by rw [hparse] at hc; cases hc⟩, fun h => ⟨h.1, nofun⟩⟩
    · refine ⟨fun h => ⟨h.1, fun c' hc' => h.2 c' ?_⟩, fun h => ⟨h.1, fun c' hc' => ?_⟩⟩
      · rw [hparse] at hc'
        exact congrArg Except.toOption hc'
      · exact h.structural c' (hparse.trans (congrArg Except.ok (Option.some.inj hc')))

theorem classify_malformed {e : ClassFile.FormatError} (h : f.Eligible u)
    (he : ClassFile.parse u.compiled = .error e) : f.classify t u = .error e := by
  rw [classify, h.name]
  simp only [he]

/-- **The verdict on an eligible unit** asks for its marker, and then for
the copy at its output. -/
theorem classify_eligible (h : f.Eligible u) (hc : ClassFile.parse u.compiled = .ok c) :
    f.classify t u = .ok (
      match c.marker? with
      | some r => (.alreadyEnhanced .marker, f.compare u.name r)
      | none =>
        match freshCopy? t u with
        | some r => (.alreadyEnhanced .outputCopy, f.compare u.name r)
        | none => (.proceed, [])) := by
  rw [classify, h.name]
  simp only [hc, h.structural c hc]
  rcases c.marker? with _ | r
  · rcases freshCopy? t u with _ | r <;> rfl
  · rfl

/-- A class file that is exempt is passed over without a warning. -/
theorem classify_ineligible (h : ¬ f.Eligible u) (hc : ClassFile.parse u.compiled = .ok c) :
    ∃ reason, f.classify t u = .ok (.exempt reason, []) := by
  rcases hname : f.nameExemption? u.name with _ | reason
  · rcases hstructural : structuralExemption? c with _ | reason
    · refine absurd ⟨hname, fun c' hc' => ?_⟩ h
      rwa [Except.ok.inj (hc'.symm.trans hc)]
    · exact ⟨reason, by simp only [classify, hname, hc, hstructural]⟩
  · exact ⟨reason, by simp only [classify, hname]⟩

/-- **The verdict on a class with a marker** is not to proceed, and warns if
the unit is not exempt and the marker names other passes than expected. -/
theorem classify_marked (hc : ClassFile.parse u.compiled = .ok c) (hr : c.marker? = some r) :
    ∃ verdict, f.classify t u = .ok (verdict, if f.Eligible u then f.compare u.name r else []) ∧
      verdict ≠ .proceed := by
  by_cases h : f.Eligible u
  · refine ⟨.alreadyEnhanced .marker, ?_, nofun⟩
    rw [classify_eligible h hc, hr, if_pos h]
  · obtain ⟨reason, hreason⟩ := classify_ineligible (t := t) h hc
    exact ⟨.exempt reason, by rw [hreason, if_neg h], nofun⟩

/-- Only a unit with a copy that is up to date is passed over for it. -/
theorem of_classify_outputCopy {events : List Event}
    (h : f.classify t u = .ok (.alreadyEnhanced .outputCopy, events)) :
    (freshCopy? t u).isSome = true := by
  unfold classify at h
  split at h
  · cases h
  split at h
  · cases h
  split at h
  · cases h
  split at h
  · cases h
  split at h
  · next hcopy =>
    rw [hcopy]
    rfl
  · cases h

/-- Only an eligible unit without a marker and without a copy that is up to
date is to be enhanced. -/
theorem of_classify_proceed {events : List Event} (h : f.classify t u = .ok (.proceed, events)) :
    ∃ c, ClassFile.parse u.compiled = .ok c ∧ f.Eligible u ∧ c.marker? = none ∧
      freshCopy? t u = none := by
  unfold classify at h
  split at h
  · cases h
  next hname =>
  split at h
  · cases h
  next c hc =>
  split at h
  · cases h
  next hstructural =>
  split at h
  · cases h
  next hmarker =>
  split at h
  · cases h
  next hcopy =>
  refine ⟨c, hc, ⟨hname, fun c' hc' => ?_⟩, hmarker, hcopy⟩
  rwa [Except.ok.inj (hc'.symm.trans hc)]

theorem isSome_marker? (c : ClassFile) : c.marker?.isSome = c.isMarked := by
  rw [ClassFile.marker?, Option.isSome_map, ClassFile.isMarked, ClassFile.hasAttribute]

/-- **The verdict on an eligible class without a marker whose copy has one**
is a matter of the digest that the copy's marker says. -/
theorem classify_copy (h : f.Eligible u) (hc : ClassFile.parse u.compiled = .ok c)
    (hunmarked : c.isMarked = false) (hplace : u.location.isInPlace = false)
    (hread : t.read u.location.output = .ok out) (hc' : ClassFile.parse out = .ok c')
    (hr : c'.marker? = some r) :
    f.classify t u = .ok (if r.sourceSha256 = some (Bytes.sha256Hex u.compiled)
      then (.alreadyEnhanced .outputCopy, f.compare u.name r) else (.proceed, [])) := by
  have hmarker : c.marker? = none := by
    rwa [← isSome_marker?, Option.isSome_eq_false_iff, Option.isNone_iff_eq_none] at hunmarked
  have hcopy : freshCopy? t u =
      if r.sourceSha256 = some (Bytes.sha256Hex u.compiled) then some r else none := by
    simp only [freshCopy?, hplace, markerAt?, hread, hc', hr, Option.filter_some]
    by_cases hdigest : r.sourceSha256 = some (Bytes.sha256Hex u.compiled) <;> simp [hdigest]
  rw [classify_eligible h hc, hmarker, hcopy]
  by_cases hdigest : r.sourceSha256 = some (Bytes.sha256Hex u.compiled)
  · rw [if_pos hdigest, if_pos hdigest]
  · rw [if_neg hdigest, if_neg hdigest]

/-- **Nothing but the output has a say** in the verdict on a unit: whether it
can be read, and what it holds. -/
theorem classify_congr {t' : FileTree}
    (h : ∀ bytes, t'.read u.location.output = .ok bytes ↔ t.read u.location.output = .ok bytes) :
    f.classify t' u = f.classify t u := by
  have hmarker : markerAt? t' u.location.output = markerAt? t u.location.output := by
    rw [markerAt?, markerAt?]
    rcases hread : t.read u.location.output with fault | bytes
    · rcases hread' : t'.read u.location.output with fault' | bytes'
      · rfl
      · rw [h, hread] at hread'
        cases hread'
    · rw [(h bytes).2 hread]
  simp only [classify, freshCopy?, hmarker]

theorem freshCopy?_inPlace (h : u.location.isInPlace = true) : freshCopy? t u = none := by
  rw [freshCopy?, if_pos h]

end EligibilityFilter

end ClassWeave
