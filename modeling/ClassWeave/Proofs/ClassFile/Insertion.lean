import ClassWeave.Proofs.ClassFile.Meaning
import ClassWeave.Proofs.Text.Utf8
/-!
# ClassFile -- what the insertion of an attribute keeps

An inserted attribute comes behind the others, and the text of its name
behind the constants unless the pool has it. In a complete pool that text
gets the slot it is numbered by, so the layout still is one that its
encoding spells out, each index leads where it led, and the file says what
it said and the attribute too (`withAttribute_conservative`). Behind
constants that reach over the declared slots the text gets no slot at all:
the reader stops before it, and no reading of what was written has the
attribute (`not_hasAttribute_of_overhang`).
-/


namespace ClassWeave

/-- The octets of a file from one offset up to another. -/
def Bytes.slice (b : Bytes) (start stop : Nat) : Bytes := (b.take stop).drop start

namespace ClassFile

namespace Layout

variable {l l' : Layout} {name : String} {payload : Bytes}

/-! ## Texts of the pool -/

/-- Constants that fill a pool all have their first slot in it. -/
theorem mem_take_of_placed {c : Constant} {count next : Nat} {cs : List Constant}
    (h : Placed count next cs) (hc : c ∈ cs) :
    some c ∈ (slotsOfAll cs).take (count - next) := by
  induction cs generalizing next with
  | nil => cases hc
  | cons d cs ih =>
    obtain ⟨free, hfree⟩ : ∃ free, count - next = free + 1 := ⟨count - next - 1, by have := h.1; omega⟩
    -- the first slot of a constant is free, though its second may not be
    rcases List.mem_cons.1 hc with rfl | hmem
    · rw [hfree]
      rcases hw : c.isWide <;> simp [slotsOfAll, slotsOf, hw]
    · have hrest := ih h.2 hmem
      have hsplit : (slotsOfAll (d :: cs)).take (count - next) =
          (slotsOf d).take (count - next) ++ (slotsOfAll cs).take (count - (next + d.width)) := by
        simp only [slotsOfAll, List.flatMap_cons, List.take_append, length_slotsOf, Nat.sub_sub]
      rw [hsplit]
      exact List.mem_append_right _ hrest

/-- The constants in the slots are those of the layout. -/
theorem mem_slots (h : l.Grammatical) {c : Constant} : some c ∈ l.slots ↔ c ∈ l.constants := by
  constructor
  · intro hc
    rcases List.mem_cons.1 (List.mem_of_mem_take hc) with hnone | hmem
    · cases hnone
    · obtain ⟨d, hd, hslot⟩ := List.mem_flatMap.1 hmem
      unfold slotsOf at hslot
      split at hslot <;> simp at hslot <;> exact hslot ▸ hd
  · intro hc
    have htake := mem_take_of_placed h.placed hc
    unfold slots
    rcases hn : l.poolCount.toNat with _ | n
    · rw [hn] at htake
      cases htake
    · rw [hn, Nat.add_sub_cancel] at htake
      exact List.mem_cons_of_mem _ htake

theorem holds_iff (h : l.Grammatical) :
    l.Holds name ↔ ∃ text, .utf8 text ∈ l.constants ∧ Utf8.decode text = name := by
  unfold Holds
  simp only [mem_slots h]

/-- The slot that a text is found at leads to that text. -/
theorem textAt_of_indexOf? {i : Nat} (h : l.indexOf? name = some i) :
    l.Holds name ∧ l.TextAt (UInt16.ofNat i) name := by
  obtain ⟨hlt, hslot, -⟩ := List.findIdx?_eq_some_iff_getElem.1 h
  have hsize : i < 65536 := by
    have hcount := l.poolCount.toNat_lt
    have hle : l.slots.length ≤ l.poolCount.toNat := by
      rw [slots]
      exact List.length_take_le _ _
    omega
  split at hslot
  · next text htext =>
    have hdecode : Utf8.decode text = name := eq_of_beq hslot
    refine ⟨⟨text, htext ▸ List.getElem_mem hlt, hdecode⟩, text, ?_, hdecode⟩
    rw [UInt16.toNat_ofNat', Nat.mod_eq_of_lt hsize, List.getElem?_eq_getElem hlt, htext]
  · cases hslot

theorem not_holds_of_indexOf? (h : l.indexOf? name = none) : ¬ l.Holds name := by
  rintro ⟨text, hmem, hdecode⟩
  have hslot := List.findIdx?_eq_none_iff.1 h _ hmem
  simp [hdecode] at hslot

/-! ## One more attribute -/

/-- A layout with other constants, and an attribute behind its own. -/
def withPool (l : Layout) (poolCount : UInt16) (constants : List Constant) (a : AttributeEntry) :
    Layout :=
  { l with poolCount, constants, attributes := l.attributes ++ [a] }

/-- **What an insertion does**: the attribute comes behind the others, by
the slot of its name if the pool has one, and else by the next slot, with
the text of the name behind the constants. -/
theorem append_ok (h : l.append name payload = .ok l') :
    payload.length < 4294967296 ∧ (Utf8.encode name).length < 65536 ∧
      l.attributes.length + 1 < 65536 ∧
      ((∃ i, l.Holds name ∧ l.TextAt i name ∧
          l' = l.withPool l.poolCount l.constants ⟨i, payload⟩) ∨
        (¬ l.Holds name ∧ l.poolCount.toNat + 1 < 65536 ∧
          l' = l.withPool (l.poolCount + 1) (l.constants ++ [.utf8 (Utf8.encode name)])
            ⟨l.poolCount, payload⟩)) := by
  simp only [append] at h
  -- the payload, the name and the attributes are counted first, the pool last
  split at h
  · cases h
  split at h
  · cases h
  split at h
  · cases h
  refine ⟨by omega, by omega, by omega, ?_⟩
  split at h
  · next i hi =>
    obtain ⟨hholds, hat⟩ := textAt_of_indexOf? hi
    exact .inl ⟨_, hholds, hat, (Except.ok.inj h).symm⟩
  · next hnone =>
    split at h
    · cases h
    · next hfull =>
      have hne : l.poolCount.toNat ≠ 65535 := fun heq =>
        hfull (UInt16.toNat_inj.1 (heq.trans (by decide)))
      have hlt := l.poolCount.toNat_lt
      exact .inr ⟨not_holds_of_indexOf? hnone, by omega, (Except.ok.inj h).symm⟩

theorem slots_withPool (n : UInt16) (cs : List Constant) (a : AttributeEntry) :
    (l.withPool n cs a).slots = (none :: slotsOfAll cs).take n.toNat := rfl

/-- A text behind the constants of a complete pool gets the next slot, and
the other slots stay. -/
theorem slots_concat_utf8 (text : Bytes) (a : AttributeEntry)
    (hlen : 1 + (slotsOfAll l.constants).length = l.poolCount.toNat)
    (hroom : l.poolCount.toNat + 1 < 65536) :
    (l.withPool (l.poolCount + 1) (l.constants ++ [.utf8 text]) a).slots =
      l.slots ++ [some (.utf8 text)] := by
  have hcount : (l.poolCount + 1).toNat = l.poolCount.toNat + 1 := by
    rw [UInt16.toNat_add, UInt16.toNat_one, Nat.mod_eq_of_lt hroom]
  have hold : l.slots = none :: slotsOfAll l.constants := by
    rw [slots, List.take_of_length_le]
    rw [List.length_cons]
    change (slotsOfAll l.constants).length + 1 ≤ _
    omega
  have hall : slotsOfAll (l.constants ++ [.utf8 text]) =
      slotsOfAll l.constants ++ [some (.utf8 text)] := by
    simp [slotsOfAll, slotsOf, Constant.isWide]
  rw [slots_withPool, hcount, hold, hall, List.take_of_length_le]
  · rfl
  · simp only [List.length_cons, List.length_append, List.length_nil]
    omega

/-! ## Conservation -/

theorem getElem?_of_prefix {xs ys : List (Option Constant)} {i : Nat} {c : Option Constant}
    (h : xs <+: ys) (hi : xs[i]? = some c) : ys[i]? = some c := by
  obtain ⟨zs, rfl⟩ := h
  rw [List.getElem?_append_left (List.getElem?_eq_some_iff.1 hi).1, hi]

theorem TextAt.mono {i : UInt16} {s : String} (hslots : l.slots <+: l'.slots)
    (h : l.TextAt i s) : l'.TextAt i s := by
  obtain ⟨text, hslot, hdecode⟩ := h
  exact ⟨text, getElem?_of_prefix hslots hslot, hdecode⟩

theorem ClassAt.mono {i : UInt16} {s : String} (hslots : l.slots <+: l'.slots)
    (h : l.ClassAt i s) : l'.ClassAt i s := by
  obtain ⟨name, hslot, htext⟩ := h
  exact ⟨name, getElem?_of_prefix hslots hslot, htext.mono hslots⟩

/-- **With the slots that were there, a layout says what it said**, and the
attribute behind the others too. -/
theorem Shows.withPool {v : ClassFile} {n : UInt16} {cs : List Constant} {a : AttributeEntry}
    (h : l.Shows v) (hslots : l.slots <+: (l.withPool n cs a).slots)
    (ha : (l.withPool n cs a).TextAt a.name name) :
    (l.withPool n cs a).Shows { v with attributes := v.attributes ++ [⟨name, a.data⟩] } where
  minor := h.minor
  major := h.major
  accessFlags := h.accessFlags
  thisClass := h.thisClass.mono hslots
  superClass := by
    have hsuper := h.superClass
    rw [show (l.withPool n cs a).superClass = l.superClass from rfl]
    split at hsuper
    · next h0 => rwa [if_pos h0]
    · next h0 =>
      obtain ⟨s, hs, hat⟩ := hsuper
      rw [if_neg h0]
      exact ⟨s, hs, hat.mono hslots⟩
  interfaces := h.interfaces.imp fun _ _ hat => ClassAt.mono hslots hat
  fieldCount := h.fieldCount
  methodCount := h.methodCount
  attributes := by
    refine List.rel_append (h.attributes.imp fun _ _ hat => ⟨hat.1.mono hslots, hat.2⟩) ?_
    exact .cons ⟨ha, rfl⟩ .nil

/-- A layout that its encoding spells out still is one, with constants that
fill its slots and an attribute that fits. -/
theorem Grammatical.withPool {n : UInt16} {cs : List Constant} {a : AttributeEntry}
    (h : l.Grammatical) (hplaced : Placed n.toNat 1 cs) (hfits : ∀ c ∈ cs, c.Fits)
    (hcount : l.attributes.length + 1 < 65536) (ha : a.Fits) :
    (l.withPool n cs a).Grammatical where
  placed := hplaced
  constants := hfits
  interfaces := h.interfaces
  fields := h.fields
  methods := h.methods
  attributes := by
    refine ⟨by simpa [Layout.withPool] using hcount, fun b hb => ?_⟩
    rcases List.mem_append.1 hb with hb | hb
    · exact h.attributes.2 b hb
    · exact List.mem_singleton.1 hb ▸ ha

/-- The slots that an index leads to a class by are more than none. -/
theorem Resolves.poolCount_pos (h : l.Resolves) : 1 ≤ l.poolCount.toNat := by
  obtain ⟨s, hs⟩ := h.thisClass
  obtain ⟨i, hslot, -⟩ := className_ok.1 hs
  have hlt := (List.getElem?_eq_some_iff.1 hslot).1
  have hle : l.slots.length ≤ l.poolCount.toNat := by
    rw [slots]
    exact List.length_take_le _ _
  omega

/-- **An insertion is conservative**, unless the pool neither is complete
nor has the name: what comes out is a layout that its encoding spells out,
with the slots that were there and at most one more, and it says what was
said and the attribute. -/
theorem append_conserves (hg : l.Grammatical) (hr : l.Resolves)
    (h : l.append name payload = .ok l') (hroom : l.IsComplete ∨ l.Holds name) :
    l'.Grammatical ∧ l.slots <+: l'.slots ∧
      l'.Shows { l.view with attributes := l.view.attributes ++ [⟨name, payload⟩] } ∧
      (l.Holds name → l'.poolCount = l.poolCount) ∧
      (¬ l.Holds name → l'.poolCount.toNat = l.poolCount.toNat + 1) := by
  obtain ⟨hpayload, hname, hcount, ⟨i, hholds, hat, rfl⟩ | ⟨hholds, hfree, rfl⟩⟩ := append_ok h
  · refine ⟨hg.withPool hg.placed hg.constants hcount hpayload, List.prefix_rfl, ?_,
      fun _ => rfl, fun hn => absurd hholds hn⟩
    exact hr.shows_view.withPool List.prefix_rfl hat
  -- the name is new, so the pool is complete and its text gets the next slot
  have hlen := (hroom.resolve_right hholds).length_slots hg hr.poolCount_pos
  have hsucc : (l.poolCount + 1).toNat = l.poolCount.toNat + 1 := by
    rw [UInt16.toNat_add, UInt16.toNat_one, Nat.mod_eq_of_lt hfree]
  have hslots := slots_concat_utf8 (Utf8.encode name) ⟨l.poolCount, payload⟩ hlen hfree
  have hgrown : l.slots <+: (l.withPool (l.poolCount + 1)
      (l.constants ++ [.utf8 (Utf8.encode name)]) ⟨l.poolCount, payload⟩).slots := by
    rw [hslots]
    exact List.prefix_append _ _
  refine ⟨hg.withPool ?_ ?_ hcount hpayload, hgrown, hr.shows_view.withPool hgrown ?_,
    fun hn => absurd hn hholds, fun _ => hsucc⟩
  · rw [hsucc]
    exact hg.placed.concat hlen rfl
  · intro c hc
    rcases List.mem_append.1 hc with hc | hc
    · exact hg.constants c hc
    · exact List.mem_singleton.1 hc ▸ hname
  · refine ⟨Utf8.encode name, ?_, Utf8.decode_encode name⟩
    rw [hslots, ← hg.length_slots, List.getElem?_concat_length]

/-- **A complete pool stays complete**: the text of a new name is narrow and
gets a slot of its own. -/
theorem IsComplete.append (hg : l.Grammatical) (hr : l.Resolves) (hcomplete : l.IsComplete)
    (h : l.append name payload = .ok l') : l'.IsComplete := by
  obtain ⟨-, -, -, ⟨i, -, -, rfl⟩ | ⟨-, hfree, rfl⟩⟩ := append_ok h
  · exact hcomplete
  · intro c hlast
    rw [slots_concat_utf8 _ _ (hcomplete.length_slots hg hr.poolCount_pos) hfree,
      List.getLast?_concat] at hlast
    obtain rfl := Option.some.inj (Option.some.inj hlast)
    rfl

/-! ## Octets that are copied -/

/-- Where the constants end in the encoding. -/
def poolEnd (l : Layout) : Nat := 10 + (l.constants.flatMap Constant.encode).length

/-- Where the count of the class's attributes stands in the encoding. -/
def attributesAt (l : Layout) : Nat := l.poolEnd + l.encodeBody.length

theorem slice_append (x y z : Bytes) :
    Bytes.slice (x ++ (y ++ z)) x.length (x.length + y.length) = y := by
  rw [Bytes.slice, List.take_length_add_append, List.take_left, List.drop_left]

/-- The first eight octets: the magic number and the versions. -/
def encodeFront (l : Layout) : Bytes :=
  Bytes.ofLong magic ++ Bytes.ofWord l.minor ++ Bytes.ofWord l.major

/-- The parts of the encoding, in their order. -/
theorem encode_eq (l : Layout) :
    l.encode = l.encodeFront ++ (Bytes.ofWord l.poolCount ++ (l.constants.flatMap Constant.encode ++
      (l.encodeBody ++ (Bytes.ofWord (UInt16.ofNat l.attributes.length) ++
        l.attributes.flatMap AttributeEntry.encode)))) := by
  simp only [encode, encodeFront, encodeCounted, List.append_assoc]

theorem take_encode (l : Layout) : l.encode.take 8 = l.encodeFront := by
  rw [encode_eq, show 8 = l.encodeFront.length from rfl, List.take_left]

/-- The octets between the count of slots and the end of the pool are the
constants. -/
theorem slice_constants (l : Layout) :
    Bytes.slice l.encode 10 l.poolEnd = l.constants.flatMap Constant.encode := by
  have hfront : (l.encodeFront ++ Bytes.ofWord l.poolCount).length = 10 := rfl
  rw [encode_eq, ← List.append_assoc, poolEnd, ← hfront, slice_append]

/-- The octets between the constants and the count of attributes are the
flags, names and members. -/
theorem slice_encodeBody (l : Layout) :
    Bytes.slice l.encode l.poolEnd l.attributesAt = l.encodeBody := by
  have hfront : (l.encodeFront ++ Bytes.ofWord l.poolCount ++
      l.constants.flatMap Constant.encode).length = l.poolEnd := by
    rw [List.length_append]
    rfl
  rw [encode_eq, ← List.append_assoc, ← List.append_assoc, attributesAt, ← hfront, slice_append]

/-- The octets behind the count of attributes are the attributes. -/
theorem drop_encode (l : Layout) :
    l.encode.drop (l.attributesAt + 2) = l.attributes.flatMap AttributeEntry.encode := by
  have hfront : (l.encodeFront ++ Bytes.ofWord l.poolCount ++
      l.constants.flatMap Constant.encode ++ l.encodeBody ++
      Bytes.ofWord (UInt16.ofNat l.attributes.length)).length = l.attributesAt + 2 := by
    simp only [List.length_append, Bytes.length_ofWord, attributesAt, poolEnd]
    rfl
  rw [encode_eq, ← hfront]
  simp only [← List.append_assoc]
  rw [List.drop_left]

/-- **An insertion splices the octets that were there**: they are copied up
to the end of the pool and from there to the end, but for the two counts,
with the text of a new name between and the attribute behind. -/
theorem encode_of_append (h : l.append name payload = .ok l') :
    ∃ i, ∃ added : List Constant,
      (l.Holds name → added = []) ∧ (¬ l.Holds name → added = [.utf8 (Utf8.encode name)]) ∧
      l'.encode = l.encode.take 8 ++ Bytes.ofWord l'.poolCount ++
        Bytes.slice l.encode 10 l.poolEnd ++ added.flatMap Constant.encode ++
        Bytes.slice l.encode l.poolEnd l.attributesAt ++
        Bytes.ofWord (UInt16.ofNat (l.attributes.length + 1)) ++
        l.encode.drop (l.attributesAt + 2) ++ AttributeEntry.encode ⟨i, payload⟩ := by
  rw [take_encode, slice_constants, slice_encodeBody, drop_encode]
  obtain ⟨-, -, -, ⟨i, hholds, -, rfl⟩ | ⟨hholds, -, rfl⟩⟩ := append_ok h
  · refine ⟨i, [], fun _ => rfl, fun hn => absurd hholds hn, ?_⟩
    rw [encode_eq]
    simp [withPool, encodeFront, encodeBody]
  · refine ⟨l.poolCount, [.utf8 (Utf8.encode name)], fun hn => absurd hn hholds, fun _ => rfl, ?_⟩
    rw [encode_eq]
    simp [withPool, encodeFront, encodeBody]

theorem encodeBody_of_append (h : l.append name payload = .ok l') :
    l'.encodeBody = l.encodeBody := by
  obtain ⟨-, -, -, ⟨i, -, -, rfl⟩ | ⟨-, -, rfl⟩⟩ := append_ok h <;> rfl

end Layout

/-- What an insertion writes is the layout that was read, with the
attribute. -/
theorem withAttribute_ok {b out : Bytes} {name : String} {payload : Bytes} :
    withAttribute b name payload = .ok out ↔
      ∃ l l', Layout.read b = .ok l ∧ l.append name payload = .ok l' ∧ l'.encode = out := by
  unfold withAttribute
  rcases Layout.read b with fault | l
  · simp [bind, Except.bind]
  · rcases hl' : l.append name payload with fault | l' <;>
      simp [bind, Except.bind, pure, Except.pure, hl']

/-- What an insertion writes is read again, unless the pool neither is
complete nor has the name. -/
theorem read_withAttribute {b out : Bytes} {l : Layout} {name : String} {payload : Bytes}
    (hread : Layout.read b = .ok l) (hout : withAttribute b name payload = .ok out)
    (hroom : l.IsComplete ∨ l.Holds name) :
    ∃ l', l.append name payload = .ok l' ∧ Layout.read out = .ok l' ∧
      l'.view = { l.view with attributes := l.view.attributes ++ [⟨name, payload⟩] } := by
  obtain ⟨k, l', hk, happend, rfl⟩ := withAttribute_ok.1 hout
  obtain rfl := Except.ok.inj (hk.symm.trans hread)
  obtain ⟨⟨hg, hr⟩, -⟩ := Layout.read_ok.1 hread
  obtain ⟨hg', -, hshows, -⟩ := Layout.append_conserves hg hr happend hroom
  exact ⟨l', happend, Layout.read_ok.2 ⟨⟨hg', hshows.resolves⟩, rfl⟩, hshows.eq_view.symm⟩

/-- A class with a complete pool still has one when an attribute was
inserted. -/
theorem complete_withAttribute {b out : Bytes} {l : Layout} {name : String} {payload : Bytes}
    (hread : Layout.read b = .ok l) (hout : withAttribute b name payload = .ok out)
    (hcomplete : l.IsComplete) :
    ∃ l', Layout.read out = .ok l' ∧ l'.IsComplete ∧
      l'.view = { l.view with attributes := l.view.attributes ++ [⟨name, payload⟩] } := by
  obtain ⟨l', happend, hread', hview⟩ := read_withAttribute hread hout (.inl hcomplete)
  obtain ⟨⟨hg, hr⟩, -⟩ := Layout.read_ok.1 hread
  exact ⟨l', hread', hcomplete.append hg hr happend, hview⟩

/-- **The insertion of an attribute is conservative** over every class file
whose pool is complete or already has the name: the octets that come out
are read as the same class with the attribute behind its own; every index
leads to the constant that it led to; the pool has one more slot if the
name is new and none otherwise; and what stands between the constants and
the count of attributes is copied. -/
theorem withAttribute_conservative {b out : Bytes} {c : ClassFile} {name : String}
    {payload : Bytes} (hc : parse b = .ok c) (hout : withAttribute b name payload = .ok out)
    (hroom : ∀ l, Layout.read b = .ok l → l.IsComplete ∨ l.Holds name) :
    ∃ l l', Layout.read b = .ok l ∧ Layout.read out = .ok l' ∧
      parse out = .ok { c with attributes := c.attributes ++ [⟨name, payload⟩] } ∧
      (∀ i < l.poolCount.toNat, l'.slots[i]? = l.slots[i]?) ∧
      (l.Holds name → l'.poolCount = l.poolCount) ∧
      (¬ l.Holds name → l'.poolCount.toNat = l.poolCount.toNat + 1) ∧
      Bytes.slice out l'.poolEnd l'.attributesAt = Bytes.slice b l.poolEnd l.attributesAt := by
  obtain ⟨l, hread, rfl⟩ := parse_ok.1 hc
  obtain ⟨l', happend, hread', hview⟩ := read_withAttribute hread hout (hroom l hread)
  obtain ⟨⟨hg, hr⟩, rfl⟩ := Layout.read_ok.1 hread
  obtain ⟨-, rfl⟩ := Layout.read_ok.1 hread'
  obtain ⟨-, hslots, -, hsame, hmore⟩ := Layout.append_conserves hg hr happend (hroom l hread)
  refine ⟨l, l', hread, hread', parse_ok.2 ⟨l', hread', hview⟩, ?_, hsame, hmore, ?_⟩
  · intro i hi
    rw [← hg.length_slots] at hi
    rw [List.getElem?_eq_getElem hi]
    exact List.prefix_iff_getElem?.1 hslots i hi
  · rw [Layout.slice_encodeBody, Layout.slice_encodeBody, Layout.encodeBody_of_append happend]

/-- A class that is named by its first two constants and ends its pool in a
`long`, with `count` slots declared: five take the `long` as a whole, and
with four it reaches over. -/
def Layout.endingWide (count : UInt16) : Layout where
  minor := 0
  major := 52
  poolCount := count
  constants := [.utf8 [0x41], .classRef 1, .other .long [0, 0, 0, 0, 0, 0, 0, 7]]
  accessFlags := 0x21
  thisClass := 2
  superClass := 0
  interfaces := []
  fields := []
  methods := []
  attributes := []

/-- A `long` with both its slots makes room for the name behind it. -/
theorem withAttribute_endingWide_five :
    parse (Layout.endingWide 5).encode = .ok (Layout.endingWide 5).view ∧
      ∃ out l l', withAttribute (Layout.endingWide 5).encode "X" [1, 2] = .ok out ∧
        Layout.read (Layout.endingWide 5).encode = .ok l ∧ Layout.read out = .ok l' ∧
        parse out = .ok { (Layout.endingWide 5).view with attributes := [⟨"X", [1, 2]⟩] } ∧
        l'.poolCount.toNat = l.poolCount.toNat + 1 := by
  have hc : parse (Layout.endingWide 5).encode = .ok (Layout.endingWide 5).view := by decide
  have hread : Layout.read (Layout.endingWide 5).encode = .ok (Layout.endingWide 5) := by decide
  have hout : ∃ out, withAttribute (Layout.endingWide 5).encode "X" [1, 2] = .ok out := ⟨_, rfl⟩
  obtain ⟨out, hout⟩ := hout
  obtain ⟨l, l', hl, hl', hparse, -, -, hmore, -⟩ := withAttribute_conservative hc hout (by
    intro l hl
    obtain rfl := Except.ok.inj (hread.symm.trans hl)
    refine .inl fun c hlast => ?_
    cases hlast)
  refine ⟨hc, out, l, l', hout, hl, hl', hparse, hmore (Layout.not_holds_of_indexOf? ?_)⟩
  obtain rfl := Except.ok.inj (hread.symm.trans hl)
  decide

/-! ## Pools that reach over -/

/-- **Behind constants that reach over, the name of an insertion is never
read**: whatever the reader makes of the octets that come out, it is no
class with the attribute. -/
theorem not_hasAttribute_of_overhang {b out : Bytes} {l : Layout} {c : ClassFile} {name : String}
    {payload : Bytes} (hread : Layout.read b = .ok l)
    (hout : withAttribute b name payload = .ok out) (hover : ¬ l.IsComplete)
    (hnew : ¬ l.Holds name) (hc : parse out = .ok c) : c.hasAttribute name = false := by
  obtain ⟨k, l', hread', happend, rfl⟩ := withAttribute_ok.1 hout
  obtain rfl := Except.ok.inj (hread'.symm.trans hread)
  obtain ⟨⟨hg, hr⟩, rfl⟩ := Layout.read_ok.1 hread'
  obtain ⟨-, -, -, ⟨i, hholds, -⟩ | ⟨-, hfree, rfl⟩⟩ := Layout.append_ok happend
  · exact absurd hholds hnew
  obtain ⟨m, hm, rfl⟩ := parse_ok.1 hc
  obtain ⟨⟨hgm, hrm⟩, heq⟩ := Layout.read_ok.1 hm
  have hsucc : (k.poolCount + 1).toNat = k.poolCount.toNat + 1 := by
    rw [UInt16.toNat_add, UInt16.toNat_one, Nat.mod_eq_of_lt hfree]
  -- the constants that were there fill the slots that are declared now
  have hlen : k.poolCount.toNat + 1 ≤ 1 + (slotsOfAll k.constants).length := by
    have hle := hg.placed.le
    have hne : 1 + (slotsOfAll k.constants).length ≠ k.poolCount.toNat :=
      fun h => hover (Layout.isComplete_of_length_slots h)
    omega
  have hplaced := hg.placed.mono (Nat.le_succ _) hlen
  -- so the reader stops where they end, before the text of the name
  have hconstants : m.constants = k.constants := by
    open Reader in
    simp only [Layout.encode, Layout.withPool, List.flatMap_append, List.append_assoc,
      List.append_cancel_left_eq] at heq
    obtain ⟨-, heq⟩ := exact_word.prefix_unique trivial trivial heq
    obtain ⟨-, heq⟩ := exact_word.prefix_unique trivial trivial heq
    obtain ⟨hcount, heq⟩ := exact_word.prefix_unique trivial trivial heq
    have hplaced' : Placed m.poolCount.toNat 1 k.constants := by
      rw [hcount, hsucc]
      exact hplaced
    exact ((exact_constants m.poolCount).prefix_unique ⟨hgm.placed, hgm.constants⟩
      ⟨hplaced', hg.constants⟩ heq).1
  -- and the name of an attribute read there would be a text that the pool had
  by_contra hhas
  rw [Bool.not_eq_false, hasAttribute, find?, List.find?_isSome] at hhas
  obtain ⟨w, hw, hname⟩ := hhas
  obtain ⟨a, ha, rfl⟩ := List.mem_map.1 hw
  obtain ⟨text, hslot, hdecode⟩ := Layout.textAt_textD (hrm.attributes a ha)
  refine hnew ((Layout.holds_iff hg).2 ⟨text, ?_, hdecode.trans (eq_of_beq hname)⟩)
  rw [← hconstants]
  exact (Layout.mem_slots hgm).1 (List.mem_of_getElem? hslot)

end ClassFile

end ClassWeave
