import ClassWeave.ClassFile.Basic
import ClassWeave.Proofs.ClassFile.Reading
/-!
# ClassFile -- what octets mean as a class file

Octets are a class file if they are the writing of a layout that says
something, and then they are the writing of no other. The look-ups of the
pool are the relations of the grammar (`Pool.text_ok`, `className_ok`), so
a layout resolves exactly if it says something (`shows_iff`), and what
it says is its view (`Shows.eq_view`). With the exact reader of layouts
this gives `parse` its meaning (`parse_ok_iff`).
-/


namespace ClassWeave

namespace ClassFile

namespace Layout

variable {l l' : Layout} {i : UInt16} {s : String}

/-! ## Look-ups -/

theorem pool_slots (l : Layout) (i : Nat) : l.pool.slots[i]? = l.slots[i]? := by
  simp [pool, Pool.ofConstants, slots]

/-- The look-up of a text finds what the index leads to. -/
theorem text_ok : l.pool.text i = .ok s ↔ l.TextAt i s := by
  unfold Pool.text TextAt
  rw [pool_slots]
  constructor
  · intro h
    split at h
    · next text htext => exact ⟨text, htext, Except.ok.inj h⟩
    · cases h
  · rintro ⟨text, htext, rfl⟩
    rw [htext]

/-- The look-up of a class name finds what the index leads to. -/
theorem className_ok : l.pool.className i = .ok s ↔ l.ClassAt i s := by
  unfold Pool.className ClassAt
  rw [pool_slots]
  constructor
  · intro h
    split at h
    · next name hname => exact ⟨name, hname, text_ok.1 h⟩
    · cases h
  · rintro ⟨name, hname, htext⟩
    rw [hname]
    exact text_ok.2 htext

theorem TextAt.eq_textD (h : l.TextAt i s) : l.pool.textD i = s := by
  rw [Pool.textD, text_ok.2 h]

theorem ClassAt.eq_classNameD (h : l.ClassAt i s) : l.pool.classNameD i = s := by
  rw [Pool.classNameD, className_ok.2 h]

theorem textAt_textD (h : ∃ s, l.pool.text i = .ok s) : l.TextAt i (l.pool.textD i) := by
  obtain ⟨s, hs⟩ := h
  have hat := text_ok.1 hs
  rwa [hat.eq_textD]

/-- An index that leads to some class leads to the one that the view
shows. -/
theorem classAt_classNameD (h : ∃ s, l.pool.className i = .ok s) :
    l.ClassAt i (l.pool.classNameD i) := by
  obtain ⟨s, hs⟩ := h
  have hat := className_ok.1 hs
  rwa [hat.eq_classNameD]

/-! ## What a layout says -/

/-- **A layout says at most one thing**, its view. -/
theorem Shows.eq_view {v : ClassFile} (h : l.Shows v) : v = l.view := by
  have hsuper : v.superClass =
      if l.superClass = 0 then none else some (l.pool.classNameD l.superClass) := by
    have hs := h.superClass
    split at hs
    · next h0 => rw [hs, if_pos h0]
    · next h0 =>
      obtain ⟨s, hv, hat⟩ := hs
      rw [hv, if_neg h0, hat.eq_classNameD]
  have hinterfaces : v.interfaces = l.interfaces.map l.pool.classNameD := by
    rw [← List.forall₂_eq_eq_eq, List.forall₂_map_right_iff]
    exact List.Forall₂.imp (fun s i hat => ClassAt.eq_classNameD hat |>.symm) h.interfaces.flip
  have hattributes : v.attributes = l.attributes.map fun a => ⟨l.pool.textD a.name, a.data⟩ := by
    rw [← List.forall₂_eq_eq_eq, List.forall₂_map_right_iff]
    refine List.Forall₂.imp (fun w a hat => ?_) h.attributes.flip
    rw [hat.1.eq_textD, ← hat.2]
  have hthis := h.thisClass.eq_classNameD
  rcases v with ⟨minor, major, accessFlags, thisClass, superClass, interfaces, fieldCount,
    methodCount, attributes⟩
  simp only at hsuper hinterfaces hattributes hthis
  simp only [view, ClassFile.mk.injEq]
  exact ⟨h.minor, h.major, h.accessFlags, hthis.symm, hsuper, hinterfaces, h.fieldCount,
    h.methodCount, hattributes⟩

/-- A layout whose indices all lead to what they must says its view. -/
theorem Resolves.shows_view (h : l.Resolves) : l.Shows l.view where
  minor := rfl
  major := rfl
  accessFlags := rfl
  thisClass := classAt_classNameD h.thisClass
  superClass := by
    split
    · next h0 => simp only [view, if_pos h0]
    · next h0 =>
      exact ⟨_, by simp only [view, if_neg h0], classAt_classNameD (h.superClass h0)⟩
  interfaces := by
    simp only [view, List.forall₂_map_right_iff, List.forall₂_same]
    exact fun i hi => classAt_classNameD (h.interfaces i hi)
  fieldCount := rfl
  methodCount := rfl
  attributes := by
    simp only [view, List.forall₂_map_right_iff, List.forall₂_same]
    exact fun a ha => ⟨textAt_textD (h.attributes a ha), trivial⟩

/-- Each item of a list has its partner in a list that matches it. -/
theorem exists_of_forall₂_mem {α β : Type} {R : α → β → Prop} {as : List α} {bs : List β}
    (h : List.Forall₂ R as bs) : ∀ a ∈ as, ∃ b ∈ bs, R a b := by
  induction h with
  | nil => simp
  | @cons a b as bs hab _ ih =>
    intro a' ha'
    rcases List.mem_cons.1 ha' with rfl | hmem
    · exact ⟨b, List.mem_cons_self, hab⟩
    · obtain ⟨b', hb', hab'⟩ := ih a' hmem
      exact ⟨b', List.mem_cons_of_mem _ hb', hab'⟩

/-- In a layout that says something all indices lead to what they must. -/
theorem Shows.resolves {v : ClassFile} (h : l.Shows v) : l.Resolves where
  thisClass := ⟨_, className_ok.2 h.thisClass⟩
  superClass h0 := by
    have hs := h.superClass
    rw [if_neg h0] at hs
    obtain ⟨s, -, hat⟩ := hs
    exact ⟨s, className_ok.2 hat⟩
  interfaces i hi := by
    obtain ⟨s, -, hat⟩ := exists_of_forall₂_mem h.interfaces i hi
    exact ⟨s, className_ok.2 hat⟩
  attributes a ha := by
    obtain ⟨w, -, hat⟩ := exists_of_forall₂_mem h.attributes a ha
    exact ⟨w.name, text_ok.2 hat.1⟩

/-- **A layout says its view, or nothing.** -/
theorem shows_iff {v : ClassFile} : l.Shows v ↔ l.Resolves ∧ l.view = v := by
  constructor
  · exact fun h => ⟨h.resolves, h.eq_view.symm⟩
  · rintro ⟨h, rfl⟩
    exact h.shows_view

/-! ## Octets and layouts -/

/-- **The layouts that are read** are those that resolve, off octets that
are their encoding and no more. -/
theorem read_ok {b : Bytes} :
    Layout.read b = .ok l ↔ (l.Grammatical ∧ l.Resolves) ∧ l.encode = b := by
  unfold Layout.read
  constructor
  · intro h
    split at h
    · cases h
    · next l' c hread =>
      obtain ⟨hgood, rest, hb, rfl⟩ := Reader.exact_layout.sound hread
      split at h
      · next hrest =>
        obtain rfl := Except.ok.inj h
        exact ⟨hgood, by rw [hb, show rest = [] from hrest, List.append_nil]⟩
      · cases h
  · rintro ⟨hgood, rfl⟩
    have hread := Reader.exact_layout.complete 0 [] hgood
    rw [List.append_nil] at hread
    rw [hread]
    rfl

/-- **The encoding tells layouts apart**, whether their indices lead
anywhere or not. -/
theorem Grammatical.encode_injective (h : l.Grammatical) (h' : l'.Grammatical)
    (heq : l.encode = l'.encode) : l = l' := by
  open Reader in
  rcases l with ⟨minor, major, poolCount, constants, accessFlags, thisClass, superClass,
    interfaces, fields, methods, attributes⟩
  rcases l' with ⟨minor', major', poolCount', constants', accessFlags', thisClass', superClass',
    interfaces', fields', methods', attributes'⟩
  simp only [encode, encodeBody, List.append_assoc, List.append_cancel_left_eq] at heq
  -- what an exact reader takes off two equal texts is the same, field by field
  obtain ⟨hminor, heq⟩ := exact_word.prefix_unique trivial trivial heq
  obtain ⟨hmajor, heq⟩ := exact_word.prefix_unique trivial trivial heq
  obtain ⟨hcount, heq⟩ := exact_word.prefix_unique trivial trivial heq
  have hplaced : Placed poolCount.toNat 1 constants' := by
    rw [hcount]
    exact h'.placed
  obtain ⟨hconstants, heq⟩ := (exact_constants poolCount).prefix_unique
    ⟨h.placed, h.constants⟩ ⟨hplaced, h'.constants⟩ heq
  obtain ⟨hflags, heq⟩ := exact_word.prefix_unique trivial trivial heq
  obtain ⟨hthis, heq⟩ := exact_word.prefix_unique trivial trivial heq
  obtain ⟨hsuper, heq⟩ := exact_word.prefix_unique trivial trivial heq
  obtain ⟨hinterfaces, heq⟩ := exact_word.counted.prefix_unique
    ⟨h.interfaces, fun _ _ => trivial⟩ ⟨h'.interfaces, fun _ _ => trivial⟩ heq
  obtain ⟨hfields, heq⟩ := exact_member.counted.prefix_unique h.fields h'.fields heq
  obtain ⟨hmethods, heq⟩ := exact_member.counted.prefix_unique h.methods h'.methods heq
  rw [← List.append_nil (encodeCounted _ attributes),
    ← List.append_nil (encodeCounted _ attributes')] at heq
  obtain ⟨hattributes, -⟩ := exact_entry.counted.prefix_unique h.attributes h'.attributes heq
  subst hminor hmajor hcount hconstants hflags hthis hsuper hinterfaces hfields hmethods hattributes
  rfl

end Layout

theorem parse_ok {b : Bytes} {v : ClassFile} :
    parse b = .ok v ↔ ∃ l, Layout.read b = .ok l ∧ l.view = v := by
  unfold parse
  rcases Layout.read b with fault | l <;> simp [Except.map]

/-- **Reading accepts exactly its grammar, and without ambiguity**: octets
are read as a class file exactly if they are the encoding of a layout
whose constants fill its slots and whose lengths fit, and which says that
class file; and there is no second layout with that encoding, whatever its
indices lead to. -/
theorem parse_ok_iff (b : Bytes) (v : ClassFile) :
    parse b = .ok v ↔ ∃ l : Layout, l.Grammatical ∧ l.encode = b ∧ l.Shows v ∧ v = l.view ∧
      ∀ l' : Layout, l'.Grammatical → l'.encode = b → l' = l := by
  rw [parse_ok]
  constructor
  · rintro ⟨l, hread, hview⟩
    obtain ⟨⟨hg, hr⟩, hb⟩ := Layout.read_ok.1 hread
    refine ⟨l, hg, hb, Layout.shows_iff.2 ⟨hr, hview⟩, hview.symm, fun l' hg' hb' => ?_⟩
    exact hg'.encode_injective hg (hb'.trans hb.symm)
  · rintro ⟨l, hg, hb, hshows, hview, -⟩
    exact ⟨l, Layout.read_ok.2 ⟨⟨hg, hshows.resolves⟩, hb⟩, hview.symm⟩

end ClassFile

end ClassWeave
