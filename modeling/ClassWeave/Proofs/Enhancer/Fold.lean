import ClassWeave.Proofs.Enhancer.Stamping
import Mathlib.Data.Nat.Find
/-!
# Enhancer -- a chain as a fold over its passes

What a chain should do, told pass by pass and without the chain: the octets
behind the first so many passes (`Chain.octetsAfter`), the calls that those
take (`Chain.callsAfter`), and the first pass that something is wrong with
(`Chain.StopsAt`). A chain that runs comes past each pass that nothing is
wrong with in the state that is told (`applyFrom_passed`), so it ends as
told: with the stamp on the octets behind all passes, or at the first pass
that fails, which is blamed (`apply_eq_fold`).
-/


namespace ClassWeave

namespace Pass

variable {p : Pass} {u : ClassUnit} {current bytes : Bytes}

/-- What a pass produces for a unit, if anything. -/
def outputOn (p : Pass) (u : ClassUnit) (current : Bytes) : Option Bytes :=
  match p.run ⟨u.name, u.compiled, current⟩ with
  | .ok produced => produced
  | .error _ => none

/-- What is wrong with a pass for a unit: it fails, or what it produces is no
class file. -/
def faultOn? (p : Pass) (u : ClassUnit) (current : Bytes) : Option ChainFault :=
  match p.run ⟨u.name, u.compiled, current⟩ with
  | .error fault => some (.pass fault)
  | .ok none => none
  | .ok (some bytes) =>
    match ClassFile.parse bytes with
    | .error cause => some (.malformedOutput cause)
    | .ok _ => none

end Pass

namespace Chain

variable {chain : Chain} {u : ClassUnit} {p : Pass} {fault : ChainFault} {n i : Nat}
  {bytes : Bytes}

/-! ## The fold -/

/-- The enhanced octets of a unit behind the first so many passes: the last
output, or what the unit had before. -/
def enhancedAfter (chain : Chain) (u : ClassUnit) (n : Nat) : Option Bytes :=
  (chain.take n).foldl (fun e p => (p.outputOn u (e.getD u.compiled)).or e) u.enhanced

/-- **The octets of a unit behind the first so many passes.** -/
def octetsAfter (chain : Chain) (u : ClassUnit) (n : Nat) : Bytes :=
  (chain.enhancedAfter u n).getD u.compiled

/-- **The calls of the first so many passes**, each with the octets behind
the passes in front of it. -/
def callsAfter (chain : Chain) (u : ClassUnit) (n : Nat) : List PassCall :=
  (chain.take n).mapIdx fun i p => ⟨i, p.id, u.name, u.compiled, chain.octetsAfter u i⟩

/-- What is wrong with the pass at a place of a chain, if there is one. -/
def faultAt? (chain : Chain) (u : ClassUnit) (i : Nat) : Option ChainFault :=
  chain[i]?.bind fun p => p.faultOn? u (chain.octetsAfter u i)

/-- **Where a chain stops**: at the first pass that something is wrong
with. -/
structure StopsAt (chain : Chain) (u : ClassUnit) (i : Nat) (p : Pass) (fault : ChainFault) :
    Prop where
  pass : chain[i]? = some p
  fault : p.faultOn? u (chain.octetsAfter u i) = some fault
  passed : ∀ j < i, chain.faultAt? u j = none

theorem enhancedAfter_succ (hp : chain[n]? = some p) :
    chain.enhancedAfter u (n + 1) =
      (p.outputOn u (chain.octetsAfter u n)).or (chain.enhancedAfter u n) := by
  rw [enhancedAfter, List.take_add_one, hp, Option.toList_some, List.foldl_concat, ← enhancedAfter,
    ← octetsAfter]

/-- **The octets behind one more pass** are what it produces, or those in
front of it. -/
theorem octetsAfter_succ (hp : chain[n]? = some p) :
    chain.octetsAfter u (n + 1) =
      (p.outputOn u (chain.octetsAfter u n)).getD (chain.octetsAfter u n) := by
  rw [octetsAfter, enhancedAfter_succ hp]
  rcases p.outputOn u (chain.octetsAfter u n) with _ | bytes <;> rfl

theorem callsAfter_succ (hp : chain[n]? = some p) :
    chain.callsAfter u (n + 1) = chain.callsAfter u n ++
      [⟨n, p.id, u.name, u.compiled, chain.octetsAfter u n⟩] := by
  have hn : n < chain.length := (List.getElem?_eq_some_iff.1 hp).1
  rw [callsAfter, List.take_add_one, hp, Option.toList_some, List.mapIdx_append, List.length_take,
    Nat.min_eq_left (Nat.le_of_lt hn), ← callsAfter]
  simp only [List.mapIdx_cons, List.mapIdx_nil, Nat.zero_add]

/-! ## The chain -/

/-- A unit as it is behind the first so many passes. -/
def unitAfter (chain : Chain) (u : ClassUnit) (n : Nat) : ClassUnit :=
  { u with enhanced := chain.enhancedAfter u n }

/-- A pass stops a chain if something is wrong with it, and its output is
installed if not. -/
theorem applyPass_eq (p : Pass) (u : ClassUnit) (e : Option Bytes) :
    applyPass p { u with enhanced := e } = match p.faultOn? u (e.getD u.compiled) with
      | some fault => .error ⟨u.name, p.id, fault⟩
      | none => .ok { u with enhanced := (p.outputOn u (e.getD u.compiled)).or e } := by
  have hcurrent : ({ u with enhanced := e } : ClassUnit).current = e.getD u.compiled := rfl
  rw [applyPass, hcurrent, Pass.faultOn?, Pass.outputOn]
  rcases p.run ⟨u.name, u.compiled, e.getD u.compiled⟩ with fault | _ | bytes
  · rfl
  · simp only [Option.none_or]
  · rcases hparse : ClassFile.parse bytes with cause | c
    · simp only [hparse]
    · simp only [hparse, Option.some_or]
      rfl

/-- One step of a chain. -/
theorem applyFrom_step (hp : chain[n]? = some p) :
    applyFrom n (chain.unitAfter u n) (chain.callsAfter u n) (chain.drop n) =
      match p.faultOn? u (chain.octetsAfter u n) with
      | some fault => ⟨chain.unitAfter u n, chain.callsAfter u (n + 1), some ⟨u.name, p.id, fault⟩⟩
      | none => applyFrom (n + 1) (chain.unitAfter u (n + 1)) (chain.callsAfter u (n + 1))
          (chain.drop (n + 1)) := by
  obtain ⟨hn, hget⟩ := List.getElem?_eq_some_iff.1 hp
  have hcall : callOf n p (chain.unitAfter u n) =
      ⟨n, p.id, u.name, u.compiled, chain.octetsAfter u n⟩ := rfl
  have hpass := applyPass_eq p u (chain.enhancedAfter u n)
  rw [← octetsAfter, ← enhancedAfter_succ hp] at hpass
  rw [List.drop_eq_getElem_cons hn, hget, applyFrom, hcall, ← callsAfter_succ hp]
  simp only [unitAfter, hpass]
  rcases p.faultOn? u (chain.octetsAfter u n) with _ | fault <;> rfl

/-- **A chain comes past the passes that nothing is wrong with**, with the
octets and the calls that the fold tells. -/
theorem applyFrom_passed (hn : n ≤ chain.length) (hpassed : ∀ j < n, chain.faultAt? u j = none) :
    applyFrom 0 u [] chain =
      applyFrom n (chain.unitAfter u n) (chain.callsAfter u n) (chain.drop n) := by
  induction n with
  | zero => rfl
  | succ n ih =>
    have hp : chain[n]? = some chain[n] := List.getElem?_eq_getElem hn
    have hnone := hpassed n (Nat.lt_succ_self n)
    rw [faultAt?, hp, Option.bind_some] at hnone
    rw [ih (Nat.le_of_succ_le hn) fun j hj => hpassed j (Nat.lt_succ_of_lt hj), applyFrom_step hp,
      hnone]

/-- Passes that nothing is wrong with are all called, and leave the unit for
the marker. -/
theorem applyFrom_all (hpassed : ∀ i, chain.faultAt? u i = none) :
    applyFrom 0 u [] chain =
      ⟨chain.unitAfter u chain.length, chain.callsAfter u chain.length, none⟩ := by
  rw [applyFrom_passed le_rfl fun j _ => hpassed j, List.drop_length, applyFrom]

/-- **A chain ends at the pass where it stops**, which is blamed and is the
last one that is called. -/
theorem StopsAt.apply (h : chain.StopsAt u i p fault) :
    chain.apply u = ⟨chain.unitAfter u i, chain.callsAfter u (i + 1), some ⟨u.name, p.id, fault⟩⟩ := by
  have hlt : i < chain.length := (List.getElem?_eq_some_iff.1 h.pass).1
  have hrun := applyFrom_passed (Nat.le_of_lt hlt) h.passed
  rw [applyFrom_step h.pass, h.fault] at hrun
  simp only [Chain.apply, hrun]

/-- **A chain whose passes all do well** ends with the stamp on what they
left, or with the marker blamed. -/
theorem apply_passed (hpassed : ∀ i, chain.faultAt? u i = none) :
    chain.apply u =
      match ClassFile.stamp (chain.octetsAfter u chain.length)
          ⟨chain.ids, some (Bytes.sha256Hex u.compiled)⟩ with
      | .ok out => ⟨u.install out, chain.callsAfter u chain.length, none⟩
      | .error cause => ⟨chain.unitAfter u chain.length, chain.callsAfter u chain.length,
          some ⟨u.name, markerId, .unstamped cause⟩⟩ := by
  have hcurrent : (chain.unitAfter u chain.length).current = chain.octetsAfter u chain.length := rfl
  have hrecord : chain.record (chain.unitAfter u chain.length) =
      ⟨chain.ids, some (Bytes.sha256Hex u.compiled)⟩ := rfl
  simp only [Chain.apply, applyFrom_all hpassed, stampUnit, hcurrent, hrecord]
  rcases ClassFile.stamp (chain.octetsAfter u chain.length)
    ⟨chain.ids, some (Bytes.sha256Hex u.compiled)⟩ with cause | out <;> rfl

/-- A chain stops at some pass, or nothing is wrong with any. -/
theorem passed_or_stops (chain : Chain) (u : ClassUnit) :
    (∀ i, chain.faultAt? u i = none) ∨ ∃ i p fault, chain.StopsAt u i p fault := by
  by_cases hpassed : ∀ i, chain.faultAt? u i = none
  · exact .inl hpassed
  · rw [not_forall] at hpassed
    have hfirst := Nat.find_spec hpassed
    obtain ⟨fault, hfault⟩ := Option.ne_none_iff_exists'.1 hfirst
    obtain ⟨p, hp, hfault⟩ := Option.bind_eq_some_iff.1 hfault
    refine .inr ⟨Nat.find hpassed, p, fault, hp, hfault, fun j hj => ?_⟩
    exact not_not.1 (Nat.find_min hpassed hj)

/-- **A chain is the fold over its passes.** For every chain and every unit
without enhanced octets: the octets behind no pass are the compiled ones, and
those behind one more pass are what it produces, or those in front of it. If
nothing is wrong with any pass, each was called once, in order, with the
octets in front of it, and the chain installs the stamp on the last octets,
with all its identities and the digest of the compiled octets, or blames the
marker. If a pass is the first that fails or produces what is no class file,
it is blamed with the unit's name, no pass behind it was called, and the unit
keeps the octets in front of it. Nothing else of the unit changes. -/
theorem apply_eq_fold (chain : Chain) (hnew : u.enhanced = none) :
    chain.octetsAfter u 0 = u.compiled ∧
    (∀ n p, chain[n]? = some p → chain.octetsAfter u (n + 1) =
      (p.outputOn u (chain.octetsAfter u n)).getD (chain.octetsAfter u n)) ∧
    ((∀ i, chain.faultAt? u i = none) →
      (chain.apply u).calls = chain.callsAfter u chain.length ∧
      match ClassFile.stamp (chain.octetsAfter u chain.length)
          ⟨chain.ids, some (Bytes.sha256Hex u.compiled)⟩ with
      | .ok out => (chain.apply u).error = none ∧ (chain.apply u).unit = u.install out
      | .error cause => (chain.apply u).error = some ⟨u.name, markerId, .unstamped cause⟩ ∧
          (chain.apply u).unit = { u with enhanced := chain.enhancedAfter u chain.length }) ∧
    ∀ i p fault, chain.StopsAt u i p fault →
      (chain.apply u).calls = chain.callsAfter u (i + 1) ∧
      (chain.apply u).error = some ⟨u.name, p.id, fault⟩ ∧
      (chain.apply u).unit = { u with enhanced := chain.enhancedAfter u i } := by
  refine ⟨?_, fun n p hp => octetsAfter_succ hp, fun hpassed => ?_, fun i p fault hstops => ?_⟩
  · have hzero : chain.enhancedAfter u 0 = u.enhanced := rfl
    rw [octetsAfter, hzero, hnew, Option.getD_none]
  · rw [apply_passed hpassed]
    split <;> exact ⟨rfl, rfl, rfl⟩
  · rw [hstops.apply]
    exact ⟨rfl, rfl, rfl⟩

/-- A unit whose pool ends in a `long`, with room behind it. -/
def roomyUnit : ClassUnit :=
  .fresh "A" (.inPlace ⟨"A.class"⟩) (ClassFile.Layout.endingWide 5).encode

/-- A pass that only looks. -/
def looking : Pass := ⟨⟨"look", "1"⟩, fun _ => .ok none⟩

/-- A pass that makes nothing that could be read. -/
def spoiling : Pass := ⟨⟨"spoil", "1"⟩, fun _ => .ok (some [0])⟩

/-- A chain that adds an attribute, looks, spoils and looks again. -/
def spoiltChain : Chain := [.attributeTag ⟨"tag", "1"⟩ "Tag" [], looking, spoiling, looking]

/-- The third pass is blamed, the fourth is not called, and what the first
one made is what the unit keeps. -/
theorem apply_eq_fold_spoilt :
    roomyUnit.enhanced = none ∧
      (spoiltChain.apply roomyUnit).calls.map PassCall.enhancer =
        [⟨"tag", "1"⟩, ⟨"look", "1"⟩, ⟨"spoil", "1"⟩] ∧
      (spoiltChain.apply roomyUnit).error =
        some ⟨"A", ⟨"spoil", "1"⟩, .malformedOutput (.truncated 0 4)⟩ ∧
      (spoiltChain.apply roomyUnit).unit.current = spoiltChain.octetsAfter roomyUnit 1 := by
  have hstops : spoiltChain.StopsAt roomyUnit 2 spoiling (.malformedOutput (.truncated 0 4)) :=
    ⟨rfl, by decide +kernel, by decide +kernel⟩
  obtain ⟨-, hoctets, -, hstop⟩ := apply_eq_fold spoiltChain (u := roomyUnit) rfl
  obtain ⟨hcalls, herror, hunit⟩ := hstop 2 spoiling _ hstops
  refine ⟨rfl, ?_, herror, ?_⟩
  · rw [hcalls]
    rfl
  · rw [hunit]
    exact hoctets 1 looking rfl

end Chain

end ClassWeave
