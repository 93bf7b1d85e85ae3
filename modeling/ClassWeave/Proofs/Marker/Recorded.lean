import ClassWeave.Proofs.Eligibility
import ClassWeave.Proofs.Enhancer.Writes
import ClassWeave.Proofs.Fate
import ClassWeave.Proofs.Marker.Codec
/-!
# Marker -- what a class records of its enhancement

A chain of built-in kinds that does not fail writes its identities and the
digest of the compiled octets into the marker. What is read from it later is
that, within two limits. The identities are those of the chain exactly if all
of them are legible (`recorded_enhancers_iff`); otherwise a class warns of
other passes under the very configuration that it was enhanced with. And the
digest is that of the compiled octets unless a registration adds an attribute
of the marker's name itself, which then is found in front of the marker that
the chain wrote (`recorded_digest_iff`); such a copy is not known for what it
is by a later run.
-/


namespace ClassWeave

namespace Chain

variable {specs : List EnhancerSpec} {chain : Chain} {u : ClassUnit} {c : ClassFile}

/-- What a chain records breaks no line with its digest. -/
theorem not_mem_record (chain : Chain) (u : ClassUnit) :
    ∀ hash ∈ (chain.record u).sourceSha256, '\n' ∉ hash.toList := by
  intro hash hhash
  obtain rfl := Option.some.inj hhash
  exact fun hmem => absurd (Bytes.isBlank_toHex hmem) (by decide)

/-- **When the passes that are recorded are those of the chain.** A chain of
built-in kinds, none of which adds an attribute of the marker's name, that
does not fail on a class without a marker leaves one that names other passes
than the chain's exactly if one of their identities is not legible. And
exactly then a filter that expects the passes of the chain warns of what comes
out, if it is not exempt. -/
theorem recorded_enhancers_iff (hchain : Registry.builtin.chain specs = .ok chain)
    (hown : ∀ s ∈ specs, s.addedName ≠ MarkerRecord.attributeName)
    (hc : ClassFile.parse u.current = .ok c) (hunmarked : c.isMarked = false)
    (hcomplete : ClassFile.PoolComplete u.current) (hok : (chain.apply u).error = none) :
    ∃ out c' r, (chain.apply u).unit = u.install out ∧ ClassFile.parse out = .ok c' ∧
      c'.marker? = some r ∧ (r.enhancers = chain.ids ↔ ∀ id ∈ chain.ids, id.Legible) ∧
      ∀ (f : EligibilityFilter) (t : FileTree) (v : ClassUnit), v.compiled = out →
        f.expected = chain.ids → ∃ verdict, verdict ≠ .proceed ∧
          f.classify t v = .ok (verdict,
            if f.Eligible v ∧ ¬ ∀ id ∈ chain.ids, id.Legible then
              [.otherEnhancers v.name r.enhancers chain.ids]
            else []) := by
  obtain ⟨l, hread, rfl⟩ := ClassFile.parse_ok.1 hc
  obtain ⟨out, c', r, hunit, hc', hmarker, hr⟩ :=
    marker?_built hchain hread (hcomplete l hread) hunmarked hok
  have hnone : specs.find? (fun s => s.addedName == MarkerRecord.attributeName) = none :=
    List.find?_eq_none.2 fun s hs => mt eq_of_beq (hown s hs)
  rw [hnone, Option.map_none, Option.getD_none] at hr
  have hiff : r.enhancers = chain.ids ↔ ∀ id ∈ chain.ids, id.Legible := by
    rw [hr]
    exact MarkerRecord.enhancers_decode_iff (chain.not_mem_record u)
  refine ⟨out, c', r, hunit, hc', hmarker, hiff, fun f t v hv hexpected => ?_⟩
  have hwarns : f.compare v.name r =
      if ∀ id ∈ chain.ids, id.Legible then [] else [.otherEnhancers v.name r.enhancers chain.ids] := by
    rw [EligibilityFilter.compare, hexpected]
    split_ifs with hother hlegible hlegible
    · exact absurd (hiff.2 hlegible) hother.2
    · rfl
    · rfl
    · -- a chain without passes has no identity that is not legible
      refine absurd ⟨fun hnil => hlegible ?_, mt hiff.1 hlegible⟩ hother
      rw [hnil]
      nofun
  obtain ⟨verdict, hverdict, hproceed⟩ := f.classify_marked (t := t) (hv ▸ hc') hmarker
  refine ⟨verdict, hproceed, ?_⟩
  rw [hverdict, hwarns]
  by_cases heligible : f.Eligible v
  · by_cases hlegible : ∀ id ∈ chain.ids, id.Legible
    · rw [if_pos heligible, if_pos hlegible, if_neg (not_and_not_right.2 fun _ => hlegible)]
    · rw [if_pos heligible, if_neg hlegible, if_pos ⟨heligible, hlegible⟩]
  · rw [if_neg heligible, if_neg (mt And.left heligible)]

/-- A registration of a pass that adds a reload stamp, with no kind given. -/
def stamping : EnhancerSpec := ⟨"reload-stamp", "1", none, []⟩

/-- Two registrations, the first under a name with an `@` in it. -/
def siteSpecs : List EnhancerSpec := [tagging "orm@site" "Tag", stamping]

/-- The chain of the two. -/
def siteChain : Chain := siteSpecs.map EnhancerSpec.pass

/-- The chain is that of the registrations. -/
theorem chain_site : Registry.builtin.chain siteSpecs = .ok siteChain := by
  have hbuilt : (Registry.builtin.chain siteSpecs).toOption.isSome = true := by decide +kernel
  rcases hchain : Registry.builtin.chain siteSpecs with e | chain
  · rw [hchain] at hbuilt
    cases hbuilt
  · rw [Registry.chain_builtin hchain, siteChain]

/-- It does not fail on a class that ends its pool in a `long`. -/
theorem error_site : (siteChain.apply (Processor.wideUnit 5)).error = none := by
  have hread : ClassFile.Layout.read (Processor.wideUnit 5).current = .ok (.endingWide 5) := by decide
  have hpayloads : ∀ s ∈ siteSpecs,
      (s.payload (Processor.wideUnit 5).compiled).length < 4294967296 := by
    have hstamp : stamping.payload (Processor.wideUnit 5).compiled =
        Utf8.encode (Bytes.sha256Hex (Processor.wideUnit 5).compiled) := if_pos rfl
    rw [siteSpecs, List.forall_mem_cons, List.forall_mem_singleton, hstamp]
    refine ⟨by decide, (Utf8.length_encode_le _).trans_lt ?_⟩
    rw [Bytes.length_sha256Hex]
    decide
  exact error_apply_of_room chain_site hread (by decide) hpayloads
    ((length_record_le _ _).trans_lt (by decide)) (by decide) (by decide) (by decide)

/-- A name may hold the character that parts it from its version. -/
theorem recorded_enhancers_iff_site :
    Registry.builtin.chain siteSpecs = .ok siteChain ∧
      (siteChain.apply (Processor.wideUnit 5)).error = none ∧
      ∃ out c r, (siteChain.apply (Processor.wideUnit 5)).unit = (Processor.wideUnit 5).install out ∧
        ClassFile.parse out = .ok c ∧ c.marker? = some r ∧
        r.enhancers = [⟨"orm@site", "1"⟩, ⟨"reload-stamp", "1"⟩] := by
  have hc : ClassFile.parse (Processor.wideUnit 5).current =
      .ok (ClassFile.Layout.endingWide 5).view := by decide
  obtain ⟨out, c, r, hunit, hc', hmarker, hiff, -⟩ :=
    recorded_enhancers_iff chain_site (by decide) hc (by decide) (by decide) error_site
  exact ⟨chain_site, error_site, out, c, r, hunit, hc', hmarker, hiff.2 (by decide)⟩

/-- A registration whose name has a comma. -/
def commaChain : Chain := [(tagging "a,b" "Tag").pass]

/-- A name with a comma is recorded as two, and the class warns of them under
the configuration that it was enhanced with. -/
theorem recorded_enhancers_comma :
    Registry.builtin.chain [tagging "a,b" "Tag"] = .ok commaChain ∧
      commaChain.ids = [⟨"a,b", "1"⟩] ∧
      (commaChain.apply (Processor.wideUnit 5)).error = none ∧
      ∃ out ∈ (commaChain.apply (Processor.wideUnit 5)).unit.enhanced,
        ∃ c ∈ (ClassFile.parse out).toOption, ∃ r ∈ c.marker?,
          r.enhancers = [⟨"a", ""⟩, ⟨"b", "1"⟩] ∧
          (EligibilityFilter.ofExtra [] commaChain.ids).classify ⟨[], []⟩
              (.fresh "A" (.inPlace ⟨"A.class"⟩) out) =
            .ok (.alreadyEnhanced .marker, [.otherEnhancers "A" r.enhancers commaChain.ids]) :=
  ⟨rfl, rfl, by decide +kernel⟩

/-- **When the octets that are recorded are those the class was made from.** A
chain of built-in kinds that does not fail on a class without a marker leaves
one with the digest of the unit's compiled octets exactly if the first
registration that adds an attribute of the marker's name, should there be one,
has that digest in its payload. And exactly then a run over the unchanged
octets with what came out at the unit's output knows it for an up-to-date
copy. -/
theorem recorded_digest_iff (hchain : Registry.builtin.chain specs = .ok chain)
    (hc : ClassFile.parse u.current = .ok c) (hunmarked : c.isMarked = false)
    (hcomplete : ClassFile.PoolComplete u.current) (hok : (chain.apply u).error = none) :
    ∃ out c' r, (chain.apply u).unit = u.install out ∧ ClassFile.parse out = .ok c' ∧
      c'.marker? = some r ∧
      (r.sourceSha256 = some (Bytes.sha256Hex u.compiled) ↔
        ∀ s ∈ specs.find? fun s => s.addedName == MarkerRecord.attributeName,
          (MarkerRecord.decode (s.payload u.compiled)).sourceSha256 =
            some (Bytes.sha256Hex u.compiled)) ∧
      ∀ (f : EligibilityFilter) (t : FileTree) (v : ClassUnit) (d : ClassFile),
        v.compiled = u.compiled → ClassFile.parse u.compiled = .ok d → d.isMarked = false →
        f.Eligible v → v.location.isInPlace = false → t.read v.location.output = .ok out →
        ((∃ events, f.classify t v = .ok (.alreadyEnhanced .outputCopy, events)) ↔
          r.sourceSha256 = some (Bytes.sha256Hex u.compiled)) := by
  obtain ⟨l, hread, rfl⟩ := ClassFile.parse_ok.1 hc
  obtain ⟨out, c', r, hunit, hc', hmarker, hr⟩ :=
    marker?_built hchain hread (hcomplete l hread) hunmarked hok
  refine ⟨out, c', r, hunit, hc', hmarker, ?_, fun f t v d hv hd hd' heligible hplace hout => ?_⟩
  · rcases hfind : specs.find? fun s => s.addedName == MarkerRecord.attributeName with _ | s
    · rw [hfind, Option.map_none, Option.getD_none] at hr
      refine iff_of_true ?_ fun s hs => absurd (hfind.symm.trans hs) nofun
      rw [hr]
      exact MarkerRecord.sourceSha256_decode _ fun _ => Bytes.isBlank_toHex
    · rw [hfind, Option.map_some, Option.getD_some] at hr
      rw [hr]
      simp only [hfind, Option.mem_def, Option.some.injEq, forall_eq']
  · rw [f.classify_copy heligible (hv ▸ hd) hd' hplace hout hc' hmarker, hv]
    split
    · next hdigest => exact iff_of_true ⟨_, rfl⟩ hdigest
    · next hdigest => exact iff_of_false (by rintro ⟨events, h⟩; cases h) hdigest

/-- A class records what it was made from. -/
theorem recorded_digest_iff_site :
    Registry.builtin.chain siteSpecs = .ok siteChain ∧
      (siteChain.apply (Processor.wideUnit 5)).error = none ∧
      ∃ out c r, (siteChain.apply (Processor.wideUnit 5)).unit = (Processor.wideUnit 5).install out ∧
        ClassFile.parse out = .ok c ∧ c.marker? = some r ∧
        r.sourceSha256 = some (Bytes.sha256Hex (Processor.wideUnit 5).compiled) := by
  have hc : ClassFile.parse (Processor.wideUnit 5).current =
      .ok (ClassFile.Layout.endingWide 5).view := by decide
  obtain ⟨out, c, r, hunit, hc', hmarker, hiff, -⟩ :=
    recorded_digest_iff chain_site hc (by decide) (by decide) error_site
  have hnone : siteSpecs.find? (fun s => s.addedName == MarkerRecord.attributeName) = none := rfl
  rw [hnone] at hiff
  exact ⟨chain_site, error_site, out, c, r, hunit, hc', hmarker, hiff.2 nofun⟩

/-- A registration of an attribute of the marker's name. -/
def hidingChain : Chain := [(tagging "m" MarkerRecord.attributeName).pass]

/-- Where a pass adds an attribute of the marker's name, that is the one that
is read, and it does not say what the class was made from. -/
theorem recorded_digest_hidden :
    Registry.builtin.chain [tagging "m" MarkerRecord.attributeName] = .ok hidingChain ∧
      (hidingChain.apply (Processor.wideUnit 5)).error = none ∧
      ∃ out ∈ (hidingChain.apply (Processor.wideUnit 5)).unit.enhanced,
        ∃ c ∈ (ClassFile.parse out).toOption, c.marker? = some ⟨[], none⟩ :=
  ⟨rfl, by decide +kernel⟩

end Chain

end ClassWeave
