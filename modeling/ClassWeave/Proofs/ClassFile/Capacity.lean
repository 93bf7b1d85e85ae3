import ClassWeave.Proofs.ClassFile.Insertion
import Mathlib.Data.Finset.Card
import Mathlib.Data.Finset.Dedup
/-!
# ClassFile -- what a class has room for

Attributes are counted in sixteen bits, and so are the slots of the pool that
their names need. What of a class these limits are about is its stock
(`ClassFile.Stock`): the number of its attributes, the number of its slots,
and the texts that have one. A name takes a slot the first time that it is
added and none again, so the stock after some additions is told by their names
alone (`Stock.adding`), and by the stock alone whether a further one is refused
and why (`Stock.Refuses`). Insertions into a class do just that: they are
refused when its stock refuses them (`withAttribute_error_iff`), and else add
to it, if the pool is complete (`Layout.IsComplete.insert`). So a class that is
built from nothing by additions, some of which are refused, is known by those
that were taken, up to the last slot (`built_exact`).
-/


namespace ClassWeave

namespace ClassFile

/-! ## Stocks -/

/-- **What of a class its limits are about**: how many attributes it has, how
many slots its pool has, and which texts are in them. -/
structure Stock where
  attributes : Nat
  slots : Nat
  texts : Finset String

namespace Stock

variable {k : Stock} {name : String} {cause : FormatError}

/-- The stock of a class after attributes of some names were added. Names that
are not in the pool yet take a slot each, however often they are added. -/
def adding (k : Stock) (names : List String) : Stock where
  attributes := k.attributes + names.length
  slots := k.slots + (names.toFinset \ k.texts).card
  texts := k.texts ∪ names.toFinset

/-- **Why an attribute of a name is refused**: the name is longer than its
length can say, the count of attributes cannot be raised, or the name is not
in the pool and there is no slot for it. The first that applies is the one
that is reported. -/
inductive Refuses (k : Stock) (name : String) : FormatError → Prop
  | longName (h : 65535 < (Utf8.encode name).length) :
      Refuses k name (.attributeTooLarge name (Utf8.encode name).length)
  | manyAttributes (hname : (Utf8.encode name).length ≤ 65535) (h : k.attributes = 65535) :
      Refuses k name (.attributeTooLarge name 65536)
  | fullPool (hname : (Utf8.encode name).length ≤ 65535) (hcount : k.attributes ≠ 65535)
      (hnew : name ∉ k.texts) (h : k.slots = 65535) : Refuses k name .poolFull

/-- An attribute is refused for some reason exactly if one of the three
limits is reached. -/
theorem exists_refuses_iff : (∃ cause, k.Refuses name cause) ↔
    65535 < (Utf8.encode name).length ∨ k.attributes = 65535 ∨
      name ∉ k.texts ∧ k.slots = 65535 := by
  constructor
  · rintro ⟨_, h | ⟨-, h⟩ | ⟨-, -, hnew, h⟩⟩
    · exact .inl h
    · exact .inr (.inl h)
    · exact .inr (.inr ⟨hnew, h⟩)
  · intro h
    by_cases hname : 65535 < (Utf8.encode name).length
    · exact ⟨_, .longName hname⟩
    by_cases hcount : k.attributes = 65535
    · exact ⟨_, .manyAttributes (Nat.not_lt.1 hname) hcount⟩
    · obtain ⟨hnew, hslots⟩ := (h.resolve_left hname).resolve_left hcount
      exact ⟨_, .fullPool (Nat.not_lt.1 hname) hcount hnew hslots⟩

/-- An attribute is refused for one reason only. -/
theorem Refuses.unique {other : FormatError} (h : k.Refuses name cause)
    (h' : k.Refuses name other) : cause = other := by
  rcases h with hlong | ⟨hname, hfull⟩ | ⟨hname, hcount, -, -⟩
  · rcases h' with _ | ⟨hname', -⟩ | ⟨hname', -, -, -⟩
    · rfl
    · exact absurd hlong (Nat.not_lt.2 hname')
    · exact absurd hlong (Nat.not_lt.2 hname')
  · rcases h' with hlong' | _ | ⟨-, hcount', -, -⟩
    · exact absurd hlong' (Nat.not_lt.2 hname)
    · rfl
    · exact absurd hfull hcount'
  · rcases h' with hlong' | ⟨-, hfull'⟩ | _
    · exact absurd hlong' (Nat.not_lt.2 hname)
    · exact absurd hfull' hcount
    · rfl

@[simp] theorem adding_nil (k : Stock) : k.adding [] = k := by
  simp [adding]

/-- **Names are added one after another**: what the first took a slot for,
the others find. -/
theorem adding_adding (k : Stock) (xs ys : List String) :
    (k.adding xs).adding ys = k.adding (xs ++ ys) := by
  have hsplit : (xs ++ ys).toFinset \ k.texts =
      (xs.toFinset \ k.texts) ∪ (ys.toFinset \ (k.texts ∪ xs.toFinset)) := by
    ext s
    simp only [List.toFinset_append, Finset.mem_sdiff, Finset.mem_union, List.mem_toFinset]
    tauto
  have hdisjoint : Disjoint (xs.toFinset \ k.texts) (ys.toFinset \ (k.texts ∪ xs.toFinset)) := by
    rw [Finset.disjoint_left]
    intro s hs hs'
    exact (Finset.mem_sdiff.1 hs').2 (Finset.mem_union_right _ (Finset.mem_sdiff.1 hs).1)
  have hcard : ((xs ++ ys).toFinset \ k.texts).card =
      (xs.toFinset \ k.texts).card + (ys.toFinset \ (k.texts ∪ xs.toFinset)).card := by
    rw [hsplit, Finset.card_union_of_disjoint hdisjoint]
  simp only [adding, hcard, List.length_append, Nat.add_assoc]
  rw [List.toFinset_append, Finset.union_assoc]

end Stock

/-! ## The stock of a class -/

namespace Layout

variable {l l' : Layout} {name : String} {payload : Bytes} {cause : FormatError}

/-- The texts that have a slot. -/
def texts (l : Layout) : Finset String :=
  (l.slots.filterMap fun
    | some (.utf8 text) => some (Utf8.decode text)
    | _ => none).toFinset

/-- The stock of a class. -/
def stock (l : Layout) : Stock := ⟨l.attributes.length, l.poolCount.toNat, l.texts⟩

/-- A text has a slot exactly if the pool holds it. -/
theorem mem_texts : name ∈ l.texts ↔ l.Holds name := by
  rw [texts, List.mem_toFinset, List.mem_filterMap, Holds]
  constructor
  · rintro ⟨_ | text | _ | _, hslot, htext⟩
    · cases htext
    · exact ⟨text, hslot, Option.some.inj htext⟩
    · cases htext
    · cases htext
  · rintro ⟨text, hslot, htext⟩
    exact ⟨_, hslot, congrArg some htext⟩

/-- **An attribute is refused exactly if the stock refuses it**, and for the
same reason. -/
theorem append_error_iff (hcount : l.attributes.length < 65536)
    (hpayload : payload.length < 4294967296) :
    l.append name payload = .error cause ↔ l.stock.Refuses name cause := by
  have hslots : l.poolCount = 65535 ↔ l.poolCount.toNat = 65535 := UInt16.toNat_inj.symm
  have hfound : l.indexOf? name = none ↔ ¬ l.Holds name :=
    ⟨not_holds_of_indexOf?, fun hnot => Option.eq_none_iff_forall_ne_some.2 fun i hi =>
      hnot (textAt_of_indexOf? hi).1⟩
  simp only [append, if_neg (Nat.not_le.2 hpayload)]
  by_cases hname : 65536 ≤ (Utf8.encode name).length
  · rw [if_pos hname]
    constructor
    · intro h
      rw [← Except.error.inj h]
      exact .longName hname
    · rintro (_ | ⟨hsmall, -⟩ | ⟨hsmall, -, -, -⟩)
      · rfl
      · omega
      · omega
  rw [if_neg hname]
  by_cases hmany : 65536 ≤ l.attributes.length + 1
  · have hfull : l.attributes.length = 65535 := by omega
    rw [if_pos hmany, hfull]
    constructor
    · intro h
      rw [← Except.error.inj h]
      exact .manyAttributes (by omega) hfull
    · rintro (hlong | _ | ⟨-, hother, -, -⟩)
      · omega
      · rfl
      · exact absurd hfull hother
  rw [if_neg hmany]
  have hroom : l.stock.attributes ≠ 65535 := by
    change l.attributes.length ≠ 65535
    omega
  rcases hi : l.indexOf? name with _ | i
  · have hnew : name ∉ l.stock.texts := mt mem_texts.1 (hfound.1 hi)
    by_cases hlast : l.poolCount = 65535
    · rw [if_pos hlast]
      constructor
      · intro h
        rw [← Except.error.inj h]
        exact .fullPool (by omega) hroom hnew (hslots.1 hlast)
      · rintro (hlong | ⟨-, hfull⟩ | _)
        · omega
        · exact absurd hfull hroom
        · rfl
    · rw [if_neg hlast]
      refine iff_of_false (by simp) ?_
      rintro (hlong | ⟨-, hfull⟩ | ⟨-, -, -, hslot⟩)
      · omega
      · exact hroom hfull
      · exact hlast (hslots.2 hslot)
  · refine iff_of_false (by simp) ?_
    rintro (hlong | ⟨-, hfull⟩ | ⟨-, -, hnew, -⟩)
    · omega
    · exact hroom hfull
    · exact hnew (mem_texts.2 (textAt_of_indexOf? hi).1)

/-- **An insertion adds its name to the stock** of a class with a complete
pool. -/
theorem stock_append (hg : l.Grammatical) (hr : l.Resolves) (hcomplete : l.IsComplete)
    (h : l.append name payload = .ok l') : l'.stock = l.stock.adding [name] := by
  obtain ⟨-, -, -, ⟨i, hholds, -, rfl⟩ | ⟨hholds, hfree, rfl⟩⟩ := append_ok h
  · have hold : ([name].toFinset : Finset String) ⊆ l.texts := by
      simpa using mem_texts.2 hholds
    rw [Stock.adding, stock, stock, Finset.sdiff_eq_empty_iff_subset.2 hold,
      Finset.union_eq_left.2 hold]
    simp [withPool, texts, slots]
  · have hnew : name ∉ l.texts := mt mem_texts.1 hholds
    have hsucc : (l.poolCount + 1).toNat = l.poolCount.toNat + 1 := by
      rw [UInt16.toNat_add, UInt16.toNat_one, Nat.mod_eq_of_lt hfree]
    have hslots := slots_concat_utf8 (Utf8.encode name) ⟨l.poolCount, payload⟩
      (hcomplete.length_slots hg hr.poolCount_pos) hfree
    have htexts : (l.withPool (l.poolCount + 1) (l.constants ++ [.utf8 (Utf8.encode name)])
        ⟨l.poolCount, payload⟩).texts = l.texts ∪ {name} := by
      rw [texts, hslots, List.filterMap_append, List.toFinset_append]
      simp [texts]
    have hcard : (([name].toFinset : Finset String) \ l.texts).card = 1 := by
      simp [Finset.sdiff_eq_self_of_disjoint, hnew]
    rw [Stock.adding, stock, stock, hcard, htexts]
    simp [withPool, hsucc]

/-! ## Classes that have grown -/

/-- **A class with attributes added** to those of another, one after another:
it says what that one says and the attributes too, and its pool is complete
with the slots that their names took. -/
structure Grown (l l' : Layout) (as : List Attribute) : Prop where
  view : l'.view = { l.view with attributes := l.view.attributes ++ as }
  stock : l'.stock = l.stock.adding (as.map Attribute.name)
  complete : l'.IsComplete

variable {as bs : List Attribute} {b out : Bytes} {m : Layout}

theorem IsComplete.grown (h : l.IsComplete) : l.Grown l [] where
  view := by rw [List.append_nil]
  stock := (Stock.adding_nil _).symm
  complete := h

theorem Grown.trans (h : l.Grown m as) (h' : m.Grown l' bs) : l.Grown l' (as ++ bs) where
  view := by rw [h'.view, h.view, List.append_assoc]
  stock := by rw [h'.stock, h.stock, Stock.adding_adding, List.map_append]
  complete := h'.complete

/-- An insertion into a class with a complete pool grows it by the
attribute. -/
theorem IsComplete.insert (hcomplete : l.IsComplete) (hread : Layout.read b = .ok l)
    (hout : withAttribute b name payload = .ok out) :
    ∃ l', Layout.read out = .ok l' ∧ l.Grown l' [⟨name, payload⟩] := by
  obtain ⟨l', happend, hread', hview⟩ := read_withAttribute hread hout (.inl hcomplete)
  obtain ⟨⟨hg, hr⟩, -⟩ := Layout.read_ok.1 hread
  exact ⟨l', hread', hview, stock_append hg hr hcomplete happend,
    hcomplete.append hg hr happend⟩

end Layout

/-- **An insertion is refused exactly if the stock of the class refuses
it.** -/
theorem withAttribute_error_iff {b : Bytes} {l : Layout} {name : String} {payload : Bytes}
    {cause : FormatError} (hread : Layout.read b = .ok l) (hpayload : payload.length < 4294967296) :
    withAttribute b name payload = .error cause ↔ l.stock.Refuses name cause := by
  obtain ⟨⟨hg, -⟩, -⟩ := Layout.read_ok.1 hread
  rw [← Layout.append_error_iff hg.attributes.1 hpayload, withAttribute, hread]
  rcases happend : l.append name payload with fault | l' <;>
    simp [bind, Except.bind, pure, Except.pure, happend]

/-- An insertion that is made is not refused. -/
theorem not_refuses_of_ok {b out : Bytes} {l : Layout} {name : String} {payload : Bytes}
    (hread : Layout.read b = .ok l) (hpayload : payload.length < 4294967296)
    (hout : withAttribute b name payload = .ok out) : ¬ ∃ cause, l.stock.Refuses name cause := by
  rintro ⟨cause, hrefused⟩
  cases hout.symm.trans ((withAttribute_error_iff hread hpayload).2 hrefused)

/-! ## Additions one after another -/

/-- **Octets after a list of additions**, each to what the last one that was
taken made, with those that were taken. One that is refused leaves the octets
for the next. -/
def addAll (b : Bytes) : List Attribute → Bytes × List Attribute
  | [] => (b, [])
  | a :: as =>
    match withAttribute b a.name a.data with
    | .ok out => ((addAll out as).1, a :: (addAll out as).2)
    | .error _ => addAll b as

/-- **Additions grow a class by those that are taken**, whichever are. -/
theorem grown_addAll {b : Bytes} {l : Layout} (hread : Layout.read b = .ok l)
    (hcomplete : l.IsComplete) (as : List Attribute) :
    ∃ l', Layout.read (addAll b as).1 = .ok l' ∧ l.Grown l' (addAll b as).2 := by
  induction as generalizing b l with
  | nil => exact ⟨l, hread, hcomplete.grown⟩
  | cons a as ih =>
    rcases hout : withAttribute b a.name a.data with cause | out
    · simp only [addAll, hout]
      exact ih hread hcomplete
    · obtain ⟨m, hm, hgrown⟩ := hcomplete.insert hread hout
      obtain ⟨l', hl', hgrown'⟩ := ih hm hgrown.complete
      simp only [addAll, hout]
      exact ⟨l', hl', hgrown.trans hgrown'⟩

/-! ## Classes built from nothing -/

namespace Layout

variable {name : String} {superName : Option String} {flags : UInt16}

theorem texts_skeleton :
    (skeleton name superName flags).texts = (name :: superName.toList).toFinset := by
  cases superName <;> simp [texts, slots, skeleton, slotsOf, Constant.isWide]

theorem stock_skeleton : (skeleton name superName flags).stock =
    ⟨0, if superName.isSome then 5 else 3, (name :: superName.toList).toFinset⟩ := by
  rw [stock, texts_skeleton]
  cases superName <;> rfl

/-- The octets of a class of nothing but names spell it out, if the names are
not too long. -/
theorem grammatical_skeleton (hname : (Utf8.encode name).length ≤ 65535)
    (hsuper : ∀ s ∈ superName, (Utf8.encode s).length ≤ 65535) :
    (skeleton name superName flags).Grammatical where
  placed := by cases superName <;> simp [skeleton, Placed, Constant.width, Constant.isWide]
  constants := by
    intro c hc
    rcases superName with _ | s
    · simp only [skeleton, List.append_nil, List.mem_cons, List.not_mem_nil, or_false] at hc
      rcases hc with rfl | rfl
      · exact Nat.lt_succ_of_le hname
      · trivial
    · simp only [skeleton, List.cons_append, List.nil_append, List.mem_cons, List.not_mem_nil,
        or_false] at hc
      rcases hc with rfl | rfl | rfl | rfl
      · exact Nat.lt_succ_of_le hname
      · trivial
      · exact Nat.lt_succ_of_le (hsuper s rfl)
      · trivial
  interfaces := Nat.zero_lt_succ _
  fields := ⟨Nat.zero_lt_succ _, nofun⟩
  methods := ⟨Nat.zero_lt_succ _, nofun⟩
  attributes := ⟨Nat.zero_lt_succ _, nofun⟩

/-- **A class of nothing but names says its names** and flags. -/
theorem shows_skeleton : (skeleton name superName flags).Shows
    ⟨0, 52, flags, name, superName, [], 0, 0, []⟩ where
  minor := rfl
  major := rfl
  accessFlags := rfl
  thisClass := by
    cases superName <;> exact ⟨1, rfl, Utf8.encode name, rfl, Utf8.decode_encode name⟩
  superClass := by
    rcases superName with _ | s
    · rfl
    · exact ⟨s, rfl, 3, rfl, Utf8.encode s, rfl, Utf8.decode_encode s⟩
  interfaces := .nil
  fieldCount := rfl
  methodCount := rfl
  attributes := .nil

theorem isComplete_skeleton : (skeleton name superName flags).IsComplete := by
  apply isComplete_of_length_slots
  cases superName <;> rfl

end Layout

/-- **A class that is built from nothing is what was built, up to the exact
limits.** For every name and super name of at most 65535 octets, all flags and
every list of additions, what comes of them is read as the class of those
names and flags, without interfaces, fields and methods, whose attributes are
the additions that were taken, in order. Its pool has the three or five slots
of its names, and one for each other name among those taken. One more addition
whose payload has a length that four octets hold is refused exactly if one of
the three limits is reached, for the reason that goes with it. -/
theorem built_exact (name : String) (superName : Option String) (flags : UInt16)
    (adds : List Attribute) (hname : (Utf8.encode name).length ≤ 65535)
    (hsuper : ∀ s ∈ superName, (Utf8.encode s).length ≤ 65535) :
    ∃ out taken l, addAll (skeleton name superName flags) adds = (out, taken) ∧
      parse out = .ok ⟨0, 52, flags, name, superName, [], 0, 0, taken⟩ ∧
      Layout.read out = .ok l ∧
      l.poolCount.toNat = (if superName.isSome then 5 else 3) +
        ((taken.map Attribute.name).toFinset \ (name :: superName.toList).toFinset).card ∧
      l.attributes.length = taken.length ∧
      (∀ s, l.Holds s ↔ s = name ∨ superName = some s ∨ s ∈ taken.map Attribute.name) ∧
      ∀ (a : Attribute) (cause : FormatError), a.data.length < 4294967296 →
        (withAttribute out a.name a.data = .error cause ↔ l.stock.Refuses a.name cause) := by
  have hshows : (Layout.skeleton name superName flags).Shows
      ⟨0, 52, flags, name, superName, [], 0, 0, []⟩ := Layout.shows_skeleton
  have hread : Layout.read (skeleton name superName flags) =
      .ok (Layout.skeleton name superName flags) :=
    Layout.read_ok.2 ⟨⟨Layout.grammatical_skeleton hname hsuper, hshows.resolves⟩, rfl⟩
  obtain ⟨l, hl, hgrown⟩ := grown_addAll hread Layout.isComplete_skeleton adds
  have hstock := hgrown.stock
  rw [Layout.stock_skeleton] at hstock
  have hview := hgrown.view
  rw [← hshows.eq_view, List.nil_append] at hview
  refine ⟨_, _, l, rfl, parse_ok.2 ⟨l, hl, hview⟩, hl, congrArg Stock.slots hstock, ?_, ?_, ?_⟩
  · have hcount := congrArg Stock.attributes hstock
    simpa [Stock.adding, Layout.stock] using hcount
  · intro s
    have htexts : l.texts = _ := congrArg Stock.texts hstock
    rw [← Layout.mem_texts, htexts]
    simp only [Stock.adding, Finset.mem_union, List.mem_toFinset, List.mem_cons,
      Option.mem_toList, or_assoc]
  · exact fun a cause hpayload => withAttribute_error_iff hl hpayload

/-- An interface that is its own super class, with two tags of one name and one
of the class's name: its five slots become six. -/
theorem built_exact_tagged :
    (Utf8.encode "A").length ≤ 65535 ∧ (∀ s ∈ some "A", (Utf8.encode s).length ≤ 65535) ∧
      ∃ out l, addAll (skeleton "A" (some "A") 0x200) [⟨"Tag", [1]⟩, ⟨"A", []⟩, ⟨"Tag", [2]⟩] =
          (out, [⟨"Tag", [1]⟩, ⟨"A", []⟩, ⟨"Tag", [2]⟩]) ∧
        parse out = .ok ⟨0, 52, 0x200, "A", some "A", [], 0, 0,
          [⟨"Tag", [1]⟩, ⟨"A", []⟩, ⟨"Tag", [2]⟩]⟩ ∧
        Layout.read out = .ok l ∧ l.poolCount.toNat = 6 := by
  have hname : (Utf8.encode "A").length ≤ 65535 := by decide
  have hsuper : ∀ s ∈ some "A", (Utf8.encode s).length ≤ 65535 := by
    rintro _ ⟨⟩
    exact hname
  obtain ⟨out, taken, l, hbuilt, hparse, hl, hcount, -, -, -⟩ :=
    built_exact "A" (some "A") 0x200 [⟨"Tag", [1]⟩, ⟨"A", []⟩, ⟨"Tag", [2]⟩] hname hsuper
  have htaken : taken = [⟨"Tag", [1]⟩, ⟨"A", []⟩, ⟨"Tag", [2]⟩] := by
    refine (congrArg Prod.snd hbuilt).symm.trans ?_
    decide +kernel
  subst htaken
  refine ⟨hname, hsuper, out, l, hbuilt, hparse, hl, ?_⟩
  rw [hcount]
  decide

end ClassFile

end ClassWeave
