import ClassWeave.Proofs.ClassFile.Capacity
import ClassWeave.Proofs.Enhancer.Built
import ClassWeave.Proofs.Processor
/-!
# Enhancer -- what built-in passes write, and where that stops

A chain of built-in kinds adds attributes: one for each pass whose attribute
is not there when it is its turn, and the marker (`Chain.writes`). Nothing
else can go wrong with it than that the class has no room for one of them. So
whether it fails, and what is blamed, is told by the writes and the stock of
the class alone (`ClassFile.Stock.Stops`); and if nothing stops it, the class
has grown by its writes, and each pass would find its attribute there and have
nothing to do any more (`Chain.apply_writes`). A class that is not nearly full
takes them all (`ClassFile.Stock.not_stops_of_room`), so a chain does not fail
on it (`Chain.error_apply_of_room`).
-/


namespace ClassWeave

/-! ## Lengths -/

theorem Bytes.length_sha256Hex (bytes : Bytes) : (sha256Hex bytes).length = 64 := by
  simp [sha256Hex, sha256, toHex, List.length_flatMap]

/-- A character takes at most four octets. -/
theorem Utf8.length_encode_le (s : String) : (encode s).length ≤ 4 * s.length := by
  have hchar : ∀ c, (encodeChar c).length ≤ 4 := by
    intro c
    simp only [encodeChar]
    split_ifs <;> simp
  rw [encode, ← String.length_toList]
  induction s.toList with
  | nil => simp
  | cons c cs ih =>
    rw [List.flatMap_cons, List.length_append, List.length_cons]
    have := hchar c
    omega

/-- A marker is not much longer than the identities in it. -/
theorem Chain.length_record_le (chain : Chain) (u : ClassUnit) :
    (chain.record u).encode.length ≤ 4 * ((EnhancerId.displayAll chain.ids).length + 90) := by
  refine (Utf8.length_encode_le _).trans (Nat.mul_le_mul_left 4 (Nat.le_of_eq ?_))
  have hkeys : "enhancers=".length = 10 ∧ "source-sha256=".length = 14 ∧ "\n".length = 1 := by decide
  simp only [MarkerRecord.text, record, String.length_append, Bytes.length_sha256Hex, hkeys]
  omega

/-! ## Writes -/

theorem ClassFile.hasAttribute_iff {c : ClassFile} {name : String} :
    c.hasAttribute name = true ↔ name ∈ c.attributes.map Attribute.name := by
  simp [hasAttribute, find?]

/-- **An attribute to be added**: who adds it, and what is reported of them if
the class refuses it. -/
structure Write where
  added : ClassFile.Attribute
  enhancer : EnhancerId
  fault : ClassFile.FormatError → ChainFault

namespace EnhancerSpec

/-- What the pass of a registration writes. -/
def write (s : EnhancerSpec) (compiled : Bytes) : Write :=
  ⟨s.addition compiled, s.id, fun cause => .pass (.rejected cause)⟩

/-- **What the passes of registrations write** to a class, in their order. One
whose attribute is there when it is its turn writes nothing, be it from the
class itself or from a pass in front. -/
def writes (compiled : Bytes) : ClassFile → List EnhancerSpec → List Write
  | _, [] => []
  | c, s :: specs =>
    if c.hasAttribute s.addedName then writes compiled c specs
    else s.write compiled ::
      writes compiled { c with attributes := c.attributes ++ [s.addition compiled] } specs

theorem writes_present {s : EnhancerSpec} {c : ClassFile} (compiled : Bytes)
    (specs : List EnhancerSpec) (hhas : c.hasAttribute s.addedName = true) :
    writes compiled c (s :: specs) = writes compiled c specs :=
  if_pos hhas

/-- A pass whose attribute is not there writes it, in front of what the others
write then. -/
theorem writes_absent {s : EnhancerSpec} {c : ClassFile} (compiled : Bytes)
    (specs : List EnhancerSpec) (hhas : c.hasAttribute s.addedName = false) :
    writes compiled c (s :: specs) = s.write compiled ::
      writes compiled { c with attributes := c.attributes ++ [s.addition compiled] } specs :=
  if_neg (ne_true_of_eq_false hhas)

/-- **Of each pass the attribute is there** behind what they all write. -/
theorem addedName_mem {s : EnhancerSpec} {specs : List EnhancerSpec} (compiled : Bytes)
    (c : ClassFile) (hs : s ∈ specs) :
    s.addedName ∈ (c.attributes ++ (writes compiled c specs).map Write.added).map
      ClassFile.Attribute.name := by
  induction specs generalizing c with
  | nil => cases hs
  | cons t specs ih =>
    rcases hhas : c.hasAttribute t.addedName with _ | _
    · rw [writes_absent compiled specs hhas]
      rcases List.mem_cons.1 hs with rfl | hs
      · simp [write, addition]
      · have hmem := ih { c with attributes := c.attributes ++ [t.addition compiled] } hs
        rwa [List.append_assoc] at hmem
    · rw [writes_present compiled specs hhas]
      rcases List.mem_cons.1 hs with rfl | hs
      · rw [List.map_append]
        exact List.mem_append_left _ (ClassFile.hasAttribute_iff.1 hhas)
      · exact ih c hs

/-- There are no more writes than passes, and each has the name of one. -/
theorem writes_within (compiled : Bytes) (c : ClassFile) (specs : List EnhancerSpec) :
    (writes compiled c specs).length ≤ specs.length ∧
      ∀ w ∈ writes compiled c specs, ∃ s ∈ specs, w.added.name = s.addedName := by
  induction specs generalizing c with
  | nil => exact ⟨le_rfl, List.forall_mem_nil _⟩
  | cons s specs ih =>
    rcases hhas : c.hasAttribute s.addedName with _ | _
    · rw [writes_absent compiled specs hhas]
      obtain ⟨hlength, hnames⟩ := ih { c with attributes := c.attributes ++ [s.addition compiled] }
      refine ⟨Nat.succ_le_succ hlength, List.forall_mem_cons.2 ⟨⟨s, List.mem_cons_self, rfl⟩, ?_⟩⟩
      intro w hw
      obtain ⟨t, ht, hname⟩ := hnames w hw
      exact ⟨t, List.mem_cons_of_mem s ht, hname⟩
    · rw [writes_present compiled specs hhas]
      obtain ⟨hlength, hnames⟩ := ih c
      refine ⟨hlength.trans (Nat.le_succ _), fun w hw => ?_⟩
      obtain ⟨t, ht, hname⟩ := hnames w hw
      exact ⟨t, List.mem_cons_of_mem s ht, hname⟩

end EnhancerSpec

namespace Chain

/-- What a chain writes behind what its passes do. -/
def markerWrite (chain : Chain) (u : ClassUnit) : Write :=
  ⟨⟨MarkerRecord.attributeName, (chain.record u).encode⟩, markerId, .unstamped⟩

/-- **What a chain of built-in kinds writes** to a class: what its passes do,
and the marker, be there one or not. -/
def writes (chain : Chain) (specs : List EnhancerSpec) (u : ClassUnit) (c : ClassFile) :
    List Write :=
  EnhancerSpec.writes u.compiled c specs ++ [chain.markerWrite u]

end Chain

/-! ## Where they stop -/

namespace ClassFile

namespace Stock

variable {k : Stock} {unit : String} {w : Write} {ws vs : List Write} {e : ChainError}

/-- **Where writes stop**: at the first that is refused, those in front of it
having been taken. -/
inductive Stops (unit : String) : Stock → List Write → ChainError → Prop
  | here {k : Stock} {w : Write} {ws : List Write} {cause : FormatError}
      (h : k.Refuses w.added.name cause) :
      Stops unit k (w :: ws) ⟨unit, w.enhancer, w.fault cause⟩
  | behind {k : Stock} {w : Write} {ws : List Write} {e : ChainError}
      (htaken : ¬ ∃ cause, k.Refuses w.added.name cause)
      (h : Stops unit (k.adding [w.added.name]) ws e) : Stops unit k (w :: ws) e

/-- A write that is refused is where they stop. -/
theorem stops_refused {cause : FormatError} (h : k.Refuses w.added.name cause) :
    Stops unit k (w :: ws) e ↔ e = ⟨unit, w.enhancer, w.fault cause⟩ := by
  constructor
  · rintro (hother | ⟨htaken, -⟩)
    · rw [hother.unique h]
    · exact absurd ⟨cause, h⟩ htaken
  · rintro rfl
    exact .here h

/-- If the first write is taken, it is up to the others. -/
theorem stops_taken (htaken : ¬ ∃ cause, k.Refuses w.added.name cause) :
    Stops unit k (w :: ws) e ↔ Stops unit (k.adding [w.added.name]) ws e := by
  constructor
  · rintro (hrefused | ⟨-, h⟩)
    · exact absurd ⟨_, hrefused⟩ htaken
    · exact h
  · exact .behind htaken

/-- **Writes behind others** are where it stops only if those are all
taken. -/
theorem stops_append : Stops unit k (ws ++ vs) e ↔ Stops unit k ws e ∨
    (∀ e', ¬ Stops unit k ws e') ∧
      Stops unit (k.adding (ws.map fun w => w.added.name)) vs e := by
  induction ws generalizing k with
  | nil =>
    have hnone : ∀ e', ¬ Stops unit k [] e' := nofun
    simp [hnone]
  | cons w ws ih =>
    by_cases hrefused : ∃ cause, k.Refuses w.added.name cause
    · obtain ⟨cause, hrefused⟩ := hrefused
      simp [stops_refused hrefused]
    · simp only [List.cons_append, stops_taken hrefused, ih, adding_adding, List.map_cons,
        List.nil_append]

/-- **A class with room for as many attributes and slots as there are writes**
refuses none of them, if their names are not too long. -/
theorem not_stops_of_room (hnames : ∀ w ∈ ws, (Utf8.encode w.added.name).length ≤ 65535)
    (hcount : k.attributes + ws.length ≤ 65535) (hslots : k.slots + ws.length ≤ 65535) :
    ¬ Stops unit k ws e := by
  induction ws generalizing k with
  | nil => exact nofun
  | cons w ws ih =>
    rw [List.length_cons] at hcount hslots
    have htaken : ¬ ∃ cause, k.Refuses w.added.name cause := by
      have hname := hnames w List.mem_cons_self
      rw [exists_refuses_iff]
      omega
    rw [stops_taken htaken]
    have hcard : ([w.added.name].toFinset \ k.texts).card ≤ 1 :=
      (Finset.card_le_card Finset.sdiff_subset).trans (by simp)
    refine ih (fun w' hw' => hnames w' (List.mem_cons_of_mem w hw')) ?_ ?_
    · simp only [adding, List.length_cons, List.length_nil]
      omega
    · simp only [adding]
      omega

end Stock

end ClassFile

namespace Chain

open ClassFile (Layout)

variable {specs : List EnhancerSpec} {s : EnhancerSpec} {chain : Chain} {u : ClassUnit} {l : Layout}

/-! ## The passes -/

/-- **What a built-in pass does with a class** whose pool is complete: nothing
if its attribute is there; else it is blamed if the stock refuses the attribute,
and if not the unit has it. -/
theorem applyPass_cases (hread : Layout.read u.current = .ok l) (hcomplete : l.IsComplete)
    (hpayload : (s.payload u.compiled).length < 4294967296) :
    (l.view.hasAttribute s.addedName = true ∧ applyPass s.pass u = .ok u) ∨
    (l.view.hasAttribute s.addedName = false ∧ ∃ cause, l.stock.Refuses s.addedName cause ∧
      applyPass s.pass u = .error ⟨u.name, s.id, .pass (.rejected cause)⟩) ∨
    (l.view.hasAttribute s.addedName = false ∧ (¬ ∃ cause, l.stock.Refuses s.addedName cause) ∧
      ∃ out m, applyPass s.pass u = .ok (u.install out) ∧ Layout.read out = .ok m ∧
        l.Grown m [s.addition u.compiled]) := by
  have hc : ClassFile.parse u.current = .ok l.view := ClassFile.parse_ok.2 ⟨l, hread, rfl⟩
  rw [applyPass, EnhancerSpec.pass]
  rcases hhas : l.view.hasAttribute s.addedName with _ | _
  · rcases hout : ClassFile.withAttribute u.current s.addedName (s.payload u.compiled)
      with cause | out
    · refine .inr (.inl ⟨rfl, cause, (ClassFile.withAttribute_error_iff hread hpayload).1 hout, ?_⟩)
      rw [Pass.run_adding_rejected hc hhas hout]
      rfl
    · obtain ⟨m, hm, hgrown⟩ := hcomplete.insert hread hout
      have hparse : ClassFile.parse out = .ok m.view := ClassFile.parse_ok.2 ⟨m, hm, rfl⟩
      have htaken := ClassFile.not_refuses_of_ok hread hpayload hout
      refine .inr (.inr ⟨rfl, htaken, out, m, ?_, hm, hgrown⟩)
      rw [Pass.run_adding_ok hc hhas hout]
      simp only [hparse]
  · refine .inl ⟨rfl, ?_⟩
    rw [Pass.run_adding_present hc hhas]

/-- **What built-in passes do with a class** whose pool is complete: they fail
where their writes stop, and if these do not, the class has grown by them. -/
theorem applyFrom_writes (position : Nat) (calls : List PassCall)
    (hread : Layout.read u.current = .ok l) (hcomplete : l.IsComplete)
    (hpayloads : ∀ s ∈ specs, (s.payload u.compiled).length < 4294967296) :
    (∀ e, (applyFrom position u calls (specs.map EnhancerSpec.pass)).error = some e ↔
      l.stock.Stops u.name (EnhancerSpec.writes u.compiled l.view specs) e) ∧
    ((applyFrom position u calls (specs.map EnhancerSpec.pass)).error = none →
      ∃ l', Layout.read (applyFrom position u calls (specs.map EnhancerSpec.pass)).unit.current =
        .ok l' ∧ l.Grown l' ((EnhancerSpec.writes u.compiled l.view specs).map Write.added)) := by
  induction specs generalizing position u calls l with
  | nil =>
    refine ⟨fun e => iff_of_false (by simp [applyFrom]) ?_, fun _ => ⟨l, hread, hcomplete.grown⟩⟩
    rintro ⟨⟩
  | cons s specs ih =>
    have hrest := fun t ht => hpayloads t (List.mem_cons_of_mem s ht)
    simp only [List.map_cons, applyFrom]
    obtain ⟨hhas, hpass⟩ | ⟨hhas, cause, hrefused, hpass⟩ |
        ⟨hhas, htaken, out, m, hpass, hm, hgrown⟩ :=
      applyPass_cases hread hcomplete (hpayloads s List.mem_cons_self)
    · rw [EnhancerSpec.writes_present u.compiled specs hhas]
      simp only [hpass]
      exact ih (position + 1) _ hread hcomplete hrest
    · have hfirst : l.stock.Refuses (s.write u.compiled).added.name cause := hrefused
      rw [EnhancerSpec.writes_absent u.compiled specs hhas]
      simp only [hpass, ClassFile.Stock.stops_refused hfirst]
      refine ⟨fun e => ?_, by simp⟩
      rw [Option.some.injEq, eq_comm]
      rfl
    · have hfirst : ¬ ∃ cause, l.stock.Refuses (s.write u.compiled).added.name cause := htaken
      -- the others go on from the class with the attribute
      obtain ⟨hiff, hdone⟩ := ih (position + 1) (calls ++ [callOf position s.pass u])
        (u := u.install out) hm hgrown.complete hrest
      rw [hgrown.view, hgrown.stock] at hiff
      rw [hgrown.view] at hdone
      rw [EnhancerSpec.writes_absent u.compiled specs hhas]
      simp only [hpass, ClassFile.Stock.stops_taken hfirst]
      refine ⟨hiff, fun hok => ?_⟩
      obtain ⟨l', hl', hgrown'⟩ := hdone hok
      exact ⟨l', hl', hgrown.trans hgrown'⟩

/-! ## The whole chain -/

/-- **The marker is blamed** exactly if the class has no room for it. -/
theorem stampUnit_error_iff {e : ChainError} (hread : Layout.read u.current = .ok l)
    (hmarker : (chain.record u).encode.length < 4294967296) :
    stampUnit chain u = .error e ↔ l.stock.Stops u.name [chain.markerWrite u] e := by
  rw [stampUnit]
  rcases hstamp : ClassFile.stamp u.current (chain.record u) with cause | out
  · have hrefused : l.stock.Refuses (chain.markerWrite u).added.name cause :=
      (ClassFile.withAttribute_error_iff hread hmarker).1 hstamp
    rw [ClassFile.Stock.stops_refused hrefused]
    exact ⟨fun h => (Except.error.inj h).symm, fun h => congrArg Except.error h.symm⟩
  · have htaken := ClassFile.not_refuses_of_ok hread hmarker hstamp
    refine iff_of_false (by simp) ?_
    rintro (hrefused | ⟨-, ⟨⟩⟩)
    exact htaken ⟨_, hrefused⟩

/-- **Where a chain of built-in kinds fails**: where its writes stop. -/
theorem error_apply_iff {e : ChainError} (hchain : Registry.builtin.chain specs = .ok chain)
    (hread : Layout.read u.current = .ok l) (hcomplete : l.IsComplete)
    (hpayloads : ∀ s ∈ specs, (s.payload u.compiled).length < 4294967296)
    (hmarker : (chain.record u).encode.length < 4294967296) :
    (chain.apply u).error = some e ↔
      l.stock.Stops u.name (chain.writes specs u l.view) e := by
  obtain ⟨hiff, hdone⟩ := applyFrom_writes 0 [] hread hcomplete hpayloads
  rw [← Registry.chain_builtin hchain] at hiff hdone
  rw [writes, ClassFile.Stock.stops_append]
  rcases herr : (applyFrom 0 u [] chain).error with _ | fault
  · obtain ⟨m, hm, hgrown⟩ := hdone herr
    have hnone : ∀ e, ¬ l.stock.Stops u.name (EnhancerSpec.writes u.compiled l.view specs) e := by
      intro e hstops
      cases herr.symm.trans ((hiff e).2 hstops)
    obtain ⟨enhanced, hunit⟩ := applyFrom_unit 0 u [] chain
    rw [hunit] at hm
    have hstamp : chain.stampUnit { u with enhanced } = .error e ↔
        m.stock.Stops u.name [chain.markerWrite u] e := stampUnit_error_iff hm hmarker
    rw [hgrown.stock, List.map_map] at hstamp
    rw [or_iff_right (hnone e), and_iff_right hnone]
    refine Iff.trans ?_ hstamp
    simp only [apply, herr, hunit]
    rcases stampUnit chain { u with enhanced } with fault | v <;> simp
  · have hstops := (hiff fault).1 herr
    rw [← hiff e, or_iff_left fun h => h.1 fault hstops]
    simp only [apply, herr]

/-- **A chain of built-in kinds does not fail on a class with room** for one
attribute and one slot more than it has registrations. -/
theorem error_apply_of_room (hchain : Registry.builtin.chain specs = .ok chain)
    (hread : Layout.read u.current = .ok l) (hcomplete : l.IsComplete)
    (hpayloads : ∀ s ∈ specs, (s.payload u.compiled).length < 4294967296)
    (hmarker : (chain.record u).encode.length < 4294967296)
    (hnames : ∀ s ∈ specs, (Utf8.encode s.addedName).length ≤ 65535)
    (hcount : l.attributes.length + specs.length < 65535)
    (hslots : l.poolCount.toNat + specs.length < 65535) : (chain.apply u).error = none := by
  obtain ⟨hlength, hwritten⟩ := EnhancerSpec.writes_within u.compiled l.view specs
  refine Option.eq_none_iff_forall_ne_some.2 fun e he => ?_
  have hstops := (error_apply_iff hchain hread hcomplete hpayloads hmarker).1 he
  have hmore : (chain.writes specs u l.view).length ≤ specs.length + 1 := by
    rw [writes, List.length_append, List.length_singleton]
    exact Nat.succ_le_succ hlength
  refine ClassFile.Stock.not_stops_of_room (fun w hw => ?_) ?_ ?_ hstops
  · rcases List.mem_append.1 hw with hw | hw
    · obtain ⟨s, hs, hname⟩ := hwritten w hw
      rw [hname]
      exact hnames s hs
    · have hname : (Utf8.encode MarkerRecord.attributeName).length ≤ 65535 := by decide
      rw [List.mem_singleton.1 hw]
      exact hname
  · exact Nat.le_trans (Nat.add_le_add_left hmore _) hcount
  · exact Nat.le_trans (Nat.add_le_add_left hmore _) hslots

/-- **What a chain of built-in kinds means.** For all registrations of built-in
kinds that a chain is built of, and every class with a complete pool: the
chain fails exactly where its writes stop for want of room, and blames the
pass whose attribute is refused, or the marker. If it does not fail, what it
installs is read as the class with the attributes that it writes behind its
own, and each of its passes has nothing to do with that. -/
theorem apply_writes (hchain : Registry.builtin.chain specs = .ok chain)
    (hread : Layout.read u.current = .ok l) (hcomplete : l.IsComplete)
    (hpayloads : ∀ s ∈ specs, (s.payload u.compiled).length < 4294967296)
    (hmarker : (chain.record u).encode.length < 4294967296) :
    (∀ e, (chain.apply u).error = some e ↔
      l.stock.Stops u.name (chain.writes specs u l.view) e) ∧
    ((chain.apply u).error = none → ∃ out, (chain.apply u).unit = u.install out ∧
      ClassFile.parse out = .ok { l.view with
        attributes := l.view.attributes ++ (chain.writes specs u l.view).map Write.added } ∧
      ∀ p ∈ chain, ∀ v : PassView, v.current = out → p.run v = .ok none) := by
  refine ⟨fun e => error_apply_iff hchain hread hcomplete hpayloads hmarker, fun hok => ?_⟩
  obtain ⟨out, hstamp, hunit⟩ := apply_ok hok
  have hpasses := error_applyFrom hok
  rw [Registry.chain_builtin hchain] at hpasses
  obtain ⟨m, hm, hgrown⟩ := (applyFrom_writes 0 [] hread hcomplete hpayloads).2 hpasses
  rw [← Registry.chain_builtin hchain] at hm
  obtain ⟨l', hl', hgrown'⟩ := hgrown.complete.insert hm hstamp
  have hview := (hgrown.trans hgrown').view
  have hparse : ClassFile.parse out = .ok l'.view := ClassFile.parse_ok.2 ⟨l', hl', rfl⟩
  refine ⟨out, hunit, ?_, fun p hp v hv => ?_⟩
  · rw [hparse, hview, writes, List.map_append]
    rfl
  · rw [Registry.chain_builtin hchain] at hp
    obtain ⟨s, hs, rfl⟩ := List.mem_map.1 hp
    rw [← hv] at hparse
    refine Pass.run_adding_present hparse (ClassFile.hasAttribute_iff.2 ?_)
    rw [hview, ← List.append_assoc, List.map_append]
    exact List.mem_append_left _ (EnhancerSpec.addedName_mem u.compiled l.view hs)

/-- A registration of a pass that adds a fixed attribute. -/
def tagging (name added : String) : EnhancerSpec :=
  ⟨name, "1", some "attribute", [("attribute", .string added), ("payload", .string "v")]⟩

/-- Registrations of two attributes of one name. -/
def doubledSpecs : List EnhancerSpec := [tagging "first" "Tag", tagging "second" "Tag"]

/-- The chain of the two. -/
def doubledChain : Chain := doubledSpecs.map EnhancerSpec.pass

/-- The second of them finds the attribute of the first, so the marker comes
next. -/
theorem apply_writes_doubled :
    Registry.builtin.chain doubledSpecs = .ok doubledChain ∧
      Layout.read (Processor.wideUnit 5).current = .ok (.endingWide 5) ∧
      (Layout.endingWide 5).IsComplete ∧
      (∀ s ∈ doubledSpecs, (s.payload (Processor.wideUnit 5).compiled).length < 4294967296) ∧
      (doubledChain.record (Processor.wideUnit 5)).encode.length < 4294967296 ∧
      ∃ out c, (doubledChain.apply (Processor.wideUnit 5)).unit =
          (Processor.wideUnit 5).install out ∧ ClassFile.parse out = .ok c ∧
        c.attributes.map ClassFile.Attribute.name = ["Tag", MarkerRecord.attributeName] := by
  have hchain : Registry.builtin.chain doubledSpecs = .ok doubledChain := by rfl
  have hread : Layout.read (Processor.wideUnit 5).current = .ok (.endingWide 5) := by decide
  have hcomplete : (Layout.endingWide 5).IsComplete := by decide
  have hpayloads : ∀ s ∈ doubledSpecs,
      (s.payload (Processor.wideUnit 5).compiled).length < 4294967296 := by decide
  have hmarker : (doubledChain.record (Processor.wideUnit 5)).encode.length < 4294967296 :=
    (length_record_le _ _).trans_lt (by decide)
  have hok : (doubledChain.apply (Processor.wideUnit 5)).error = none :=
    error_apply_of_room hchain hread hcomplete hpayloads hmarker (by decide) (by decide) (by decide)
  obtain ⟨out, hunit, hparse, -⟩ := (apply_writes hchain hread hcomplete hpayloads hmarker).2 hok
  exact ⟨hchain, hread, hcomplete, hpayloads, hmarker, out, _, hunit, hparse, by rfl⟩

end Chain

end ClassWeave
