import ClassWeave.Enhancer.Chain
import ClassWeave.Proofs.ClassFile.Insertion
/-!
# Enhancer -- what a chain leaves on a unit

A chain changes nothing of a unit but its enhanced octets
(`applyFrom_unit`), and if it does not fail it leaves the marker's stamp on
what the passes made (`apply_ok`). Every output of a pass is read before it
is taken; the stamped octets are not. They can be read, and carry the
marker, exactly if the pool of what the passes made is complete or has the
marker's name already (`stamp_readable_iff`).
-/


namespace ClassWeave

namespace Chain

variable {chain : Chain} {u : ClassUnit}

/-- Passes change nothing of a unit but its enhanced octets. -/
theorem applyFrom_unit (position : Nat) (u : ClassUnit) (calls : List PassCall)
    (passes : List Pass) :
    ∃ e, (applyFrom position u calls passes).unit = { u with enhanced := e } := by
  induction passes generalizing position u calls with
  | nil => exact ⟨u.enhanced, rfl⟩
  | cons p rest ih =>
    simp only [applyFrom]
    rcases hp : applyPass p u with e | v
    · exact ⟨u.enhanced, rfl⟩
    · have hv : ∃ e, v = { u with enhanced := e } := by
        unfold applyPass at hp
        split at hp
        · cases hp
        · exact ⟨u.enhanced, (Except.ok.inj hp).symm⟩
        · split at hp
          · cases hp
          · exact ⟨_, (Except.ok.inj hp).symm⟩
      obtain ⟨e, rfl⟩ := hv
      exact ih (position + 1) { u with enhanced := e } _

/-- The octets that the passes of a chain leave for the marker. -/
def unstamped (chain : Chain) (u : ClassUnit) : Bytes := (applyFrom 0 u [] chain).unit.current

/-- **A chain that does not fail leaves a stamp**: the unit is as it was,
but for the enhanced octets, which are those that the passes left with the
marker added. -/
theorem apply_ok (h : (chain.apply u).error = none) :
    ∃ out, ClassFile.stamp (chain.unstamped u) (chain.record u) = .ok out ∧
      (chain.apply u).unit = u.install out := by
  obtain ⟨e, hunit⟩ := applyFrom_unit 0 u [] chain
  have hcurrent : chain.unstamped u = ({ u with enhanced := e } : ClassUnit).current := by
    rw [unstamped, hunit]
  rw [hcurrent]
  rcases herr : (applyFrom 0 u [] chain).error with _ | err
  · simp only [apply, herr, stampUnit, hunit] at h ⊢
    rcases hstamp : ClassFile.stamp ({ u with enhanced := e } : ClassUnit).current
        (chain.record { u with enhanced := e }) with cause | out
    · rw [hstamp] at h
      cases h
    · exact ⟨out, hstamp, rfl⟩
  · simp only [apply, herr] at h
    cases h

/-- A chain changes nothing of a unit but its enhanced octets. -/
theorem apply_unit (chain : Chain) (u : ClassUnit) :
    ∃ e, (chain.apply u).unit = { u with enhanced := e } := by
  rcases herr : (chain.apply u).error with _ | err
  · obtain ⟨out, -, hunit⟩ := apply_ok herr
    exact ⟨some out, hunit⟩
  obtain ⟨e, hunit⟩ := applyFrom_unit 0 u [] chain
  refine ⟨e, ?_⟩
  simp only [apply] at herr ⊢
  split
  · exact hunit
  · next hnone =>
    rw [hnone] at herr
    rcases hstamp : stampUnit chain (applyFrom 0 u [] chain).unit with cause | v
    · exact hunit
    · simp only [hstamp] at herr
      cases herr

end Chain

namespace ClassFile

/-- The first attribute of a name is among those that were there, or it is the
one behind them. -/
theorem find?_concat (c : ClassFile) (a : Attribute) (name : String) :
    find? { c with attributes := c.attributes ++ [a] } name =
      (c.find? name).or (if a.name = name then some a else none) := by
  rw [find?, List.find?_append, ← find?, List.find?_singleton]
  simp only [beq_iff_eq]

theorem find?_unmarked {c : ClassFile} (h : c.isMarked = false) :
    c.find? MarkerRecord.attributeName = none := by
  rwa [isMarked, hasAttribute, Option.isSome_eq_false_iff, Option.isNone_iff_eq_none] at h

theorem hasAttribute_concat (c : ClassFile) (name : String) (payload : Bytes) :
    ({ c with attributes := c.attributes ++ [⟨name, payload⟩] } : ClassFile).hasAttribute name
      = true := by
  rw [hasAttribute, find?, List.find?_isSome]
  exact ⟨⟨name, payload⟩, List.mem_append_right _ List.mem_cons_self, beq_self_eq_true name⟩

/-- **When stamped octets can be read back**: exactly if the pool that the
marker's name was added to is complete or had the name; and then they carry
the marker. -/
theorem stamp_readable_iff {b out : Bytes} {l : Layout} {r : MarkerRecord}
    (hread : Layout.read b = .ok l) (hout : stamp b r = .ok out) :
    (∃ c, parse out = .ok c ∧ c.isMarked = true) ↔
      l.IsComplete ∨ l.Holds MarkerRecord.attributeName := by
  constructor
  · rintro ⟨c, hc, hmarked⟩
    by_contra hroom
    rw [not_or] at hroom
    have hnot := not_hasAttribute_of_overhang hread hout hroom.1 hroom.2 hc
    rw [isMarked, hnot] at hmarked
    cases hmarked
  · intro hroom
    obtain ⟨l', -, hread', hview⟩ := read_withAttribute hread hout hroom
    refine ⟨_, parse_ok.2 ⟨l', hread', rfl⟩, ?_⟩
    rw [hview]
    exact hasAttribute_concat _ _ _

/-- Stamped octets are never none. -/
theorem stamp_ne_nil {b out : Bytes} {r : MarkerRecord} (hout : stamp b r = .ok out) :
    out ≠ [] := by
  obtain ⟨l, l', -, -, rfl⟩ := withAttribute_ok.1 hout
  rw [Layout.encode_eq]
  exact List.cons_ne_nil _ _

end ClassFile

end ClassWeave
