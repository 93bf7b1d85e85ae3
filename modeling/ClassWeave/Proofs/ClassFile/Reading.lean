import ClassWeave.Proofs.ClassFile.Exact
import ClassWeave.Proofs.ClassFile.Grammar
/-!
# ClassFile -- the reader of layouts is exact

Each reader of a part of a class file is exact for the writing of that
part: constants with any of their tags, the constants of a pool in their
slots, attributes and members, and at last a whole layout
(`exact_layout`). The pool's reader counts free slots downwards where the
grammar places constants upwards; `constantsOnto_step` is the step from
the one to the other.
-/


namespace ClassWeave

namespace ClassFile

/-- Every tag that announces a kind is that kind's. -/
theorem ConstantKind.tag_of_ofTag? {tag : UInt8} {kind : ConstantKind}
    (h : ConstantKind.ofTag? tag = some kind) : kind.tag = tag := by
  have hnat : kind.tag.toNat = tag.toNat := by
    unfold ConstantKind.ofTag? at h
    split at h <;> cases h <;> simp_all [ConstantKind.tag]
  exact UInt8.toNat_inj.1 hnat

/-- A layout whose indices lead to what they must: the look-ups that the
reader makes on its way all succeed. -/
structure Layout.Resolves (l : Layout) : Prop where
  thisClass : ∃ name, l.pool.className l.thisClass = .ok name
  superClass : l.superClass ≠ 0 → ∃ name, l.pool.className l.superClass = .ok name
  interfaces : ∀ i ∈ l.interfaces, ∃ name, l.pool.className i = .ok name
  attributes : ∀ a ∈ l.attributes, ∃ text, l.pool.text a.name = .ok text

namespace Reader

/-! ## Constants -/

/-- What a constant's reader takes is the writing of a constant. -/
theorem constant_sound {index o : Nat} {xs : Bytes} {a : Constant} {c : Cursor}
    (h : constant index ⟨o, xs⟩ = .ok (a, c)) :
    a.Fits ∧ ∃ rest, xs = a.encode ++ rest ∧ c = ⟨o + a.encode.length, rest⟩ := by
  obtain ⟨tag, rest₁, -, hxs, h⟩ := exact_octet.bind_sound h
  -- a text has its length in front of it, all other kinds a size of their own
  by_cases hutf8 : tag = 1
  · rw [if_pos hutf8] at h
    obtain ⟨size, rest₂, -, hrest₁, h⟩ := exact_word.bind_sound h
    obtain ⟨text, rest, hlen, hrest₂, h⟩ := (exact_take _).bind_sound h
    obtain ⟨ha, hc⟩ := pure_ok.1 h
    subst hxs hutf8 hrest₁ hrest₂ ha hc
    have hsize : UInt16.ofNat text.length = size := by rw [hlen, UInt16.ofNat_toNat]
    have hfit := size.toNat_lt
    refine ⟨by simp only [Constant.Fits]; omega, rest, ?_, ?_⟩
    · simp [Constant.encode, hsize]
    · simp [Constant.encode, hsize, Nat.add_assoc, Nat.add_left_comm, Nat.add_comm]
  rw [if_neg hutf8] at h
  by_cases hclass : tag = 7
  · rw [if_pos hclass] at h
    obtain ⟨name, rest, -, hrest₁, h⟩ := exact_word.bind_sound h
    obtain ⟨ha, hc⟩ := pure_ok.1 h
    subst hxs hclass hrest₁ ha hc
    exact ⟨trivial, rest, rfl, rfl⟩
  rw [if_neg hclass] at h
  rcases hkind : ConstantKind.ofTag? tag with _ | kind <;> rw [hkind] at h
  · cases h
  · obtain ⟨body, rest, hlen, hrest₁, h⟩ := (exact_take _).bind_sound h
    obtain ⟨ha, hc⟩ := pure_ok.1 h
    subst hxs hrest₁ ha hc
    refine ⟨hlen, rest, ?_, ?_⟩
    · rw [Constant.encode, ConstantKind.tag_of_ofTag? hkind]
      rfl
    · simp [Constant.encode, Nat.add_left_comm, Nat.add_comm]

/-- The writing of each constant that fits is taken, whatever its tag. -/
theorem constant_complete {a : Constant} (ha : a.Fits) (index o : Nat) (rest : Bytes) :
    constant index ⟨o, a.encode ++ rest⟩ = .ok (a, ⟨o + a.encode.length, rest⟩) := by
  cases a with
  | utf8 text =>
    have hsize : (UInt16.ofNat text.length).toNat = text.length := by
      rw [UInt16.toNat_ofNat', Nat.mod_eq_of_lt ha]
    have henc : (Constant.utf8 text).encode ++ rest =
        [1] ++ (Bytes.ofWord (UInt16.ofNat text.length) ++ (text ++ rest)) := by
      simp [Constant.encode]
    rw [henc]
    refine (exact_octet.bind_complete (a := 1) trivial _ o _).trans ?_
    rw [if_pos rfl, exact_word.bind_complete trivial]
    refine ((exact_take _).bind_complete hsize.symm _ _ rest).trans (pure_ok.2 ⟨rfl, ?_⟩)
    simp [Constant.encode, Nat.add_assoc, Nat.add_left_comm, Nat.add_comm]
  | classRef name =>
    refine (exact_octet.bind_complete (a := 7) trivial _ o (Bytes.ofWord name ++ rest)).trans ?_
    rw [if_neg (by decide), if_pos rfl, exact_word.bind_complete trivial]
    exact pure_ok.2 ⟨rfl, rfl⟩
  | other kind body =>
    refine (exact_octet.bind_complete (a := kind.tag) trivial _ o (body ++ rest)).trans ?_
    rw [if_neg (by cases kind <;> decide), if_neg (by cases kind <;> decide),
      ConstantKind.ofTag?_tag]
    refine ((exact_take _).bind_complete ha _ _ rest).trans (pure_ok.2 ⟨rfl, ?_⟩)
    simp [Constant.encode, Nat.add_left_comm, Nat.add_comm]

/-- **One constant of the pool**: as long as a slot is free, the constant
for it is read, and the slots that it takes are no longer free. -/
theorem constantsOnto_step {count next : Nat} (hnext : next < count) (acc : List Constant)
    (c : Cursor) :
    constantsOnto count (count - next) acc c =
      match constant next c with
      | .error e => .error e
      | .ok (a, c) => constantsOnto count (count - (next + a.width)) (a :: acc) c := by
  obtain ⟨free, hfree⟩ : ∃ free, count - next = free + 1 := ⟨count - next - 1, by omega⟩
  rw [hfree]
  have hindex : count - (free + 1) = next := by omega
  rcases free with _ | free
  · -- in the last free slot a wide constant reaches over, and is the last too
    simp only [constantsOnto, hindex]
    rcases constant next c with e | ⟨a, c⟩
    · rfl
    · have : count - (next + a.width) = 0 := by
        unfold Constant.width
        split <;> omega
      simp [constantsOnto, this]
  · simp only [constantsOnto, hindex]
    rcases constant next c with e | ⟨a, c⟩
    · rfl
    · rcases hw : a.isWide
      · have : count - (next + a.width) = free + 1 := by
          rw [Constant.width, hw, if_neg Bool.false_ne_true]
          omega
        simp [this, hw]
      · have : count - (next + a.width) = free := by
          rw [Constant.width, hw, if_pos rfl]
          omega
        simp [this, hw]

/-- What the reader of a pool takes is the writing of constants that fill
it. -/
theorem constantsOnto_sound {count : Nat} (n : Nat) : ∀ {next acc o xs as c}, count - next ≤ n →
    constantsOnto count (count - next) acc ⟨o, xs⟩ = .ok (as, c) →
    ∃ cs rest, as = acc.reverse ++ cs ∧ Placed count next cs ∧ (∀ a ∈ cs, a.Fits) ∧
      xs = cs.flatMap Constant.encode ++ rest ∧
      c = ⟨o + (cs.flatMap Constant.encode).length, rest⟩ := by
  induction n with
  | zero =>
    intro next acc o xs as c hn h
    rw [show count - next = 0 by omega] at h
    obtain ⟨rfl, rfl⟩ := Prod.mk.inj (Except.ok.inj h)
    exact ⟨[], xs, by simp, by simp only [Placed]; omega, by simp, rfl, rfl⟩
  | succ n ih =>
    intro next acc o xs as c hn h
    rcases Nat.lt_or_ge next count with hlt | hge
    · rw [constantsOnto_step hlt] at h
      split at h
      · cases h
      · next a c' ha =>
        obtain ⟨hfit, rest, rfl, rfl⟩ := constant_sound ha
        -- every constant takes a slot, so fewer are free for the rest
        have hw := a.width_pos
        obtain ⟨cs, rest', rfl, hpl, hcs, rfl, rfl⟩ := ih (by omega) h
        refine ⟨a :: cs, rest', by simp, ⟨hlt, hpl⟩, List.forall_mem_cons.2 ⟨hfit, hcs⟩,
          by simp, ?_⟩
        rw [List.flatMap_cons, List.length_append, Nat.add_assoc]
    · rw [show count - next = 0 by omega] at h
      obtain ⟨rfl, rfl⟩ := Prod.mk.inj (Except.ok.inj h)
      exact ⟨[], xs, by simp, hge, by simp, rfl, rfl⟩

/-- The writing of constants that fill a pool is taken as a whole. -/
theorem constantsOnto_complete {count : Nat} {cs : List Constant} :
    ∀ {next} (acc : List Constant) (o rest),
    Placed count next cs → (∀ a ∈ cs, a.Fits) →
    constantsOnto count (count - next) acc ⟨o, cs.flatMap Constant.encode ++ rest⟩ =
      .ok (acc.reverse ++ cs, ⟨o + (cs.flatMap Constant.encode).length, rest⟩) := by
  induction cs with
  | nil =>
    intro next acc o rest hpl _
    rw [show count - next = 0 from Nat.sub_eq_zero_of_le hpl]
    simp [constantsOnto]
  | cons a cs ih =>
    intro next acc o rest hpl hfit
    obtain ⟨ha, hcs⟩ := List.forall_mem_cons.1 hfit
    rw [constantsOnto_step hpl.1, List.flatMap_cons, List.append_assoc, constant_complete ha]
    simp only
    rw [ih _ _ _ hpl.2 hcs, List.length_append, ← Nat.add_assoc, List.reverse_cons,
      List.append_assoc]
    rfl

/-- **The reader of a pool is exact** for constants that fill its slots. -/
theorem exact_constants (count : UInt16) :
    Exact (constants count) (List.flatMap Constant.encode)
      (fun cs => Placed count.toNat 1 cs ∧ ∀ a ∈ cs, a.Fits) where
  sound h := by
    obtain ⟨cs, rest, rfl, hpl, hfit, h₁, h₂⟩ := constantsOnto_sound _ (Nat.le_refl _) h
    exact ⟨⟨hpl, hfit⟩, rest, h₁, h₂⟩
  complete o rest h := constantsOnto_complete [] o rest h.1 h.2

/-! ## Attributes, members and names -/

/-- An attribute whose name is not looked up. -/
theorem exact_entry : Exact entry AttributeEntry.encode AttributeEntry.Fits where
  sound {o xs a c} h := by
    obtain ⟨name, rest₁, -, hxs, h⟩ := exact_word.bind_sound h
    obtain ⟨size, rest₂, -, hrest₁, h⟩ := exact_long.bind_sound h
    obtain ⟨data, rest, hlen, hrest₂, h⟩ := (exact_take _).bind_sound h
    obtain ⟨ha, hc⟩ := pure_ok.1 h
    subst hxs hrest₁ hrest₂ ha hc
    have hsize : UInt32.ofNat data.length = size := by rw [hlen, UInt32.ofNat_toNat]
    have hfit := size.toNat_lt
    refine ⟨by simp only [AttributeEntry.Fits]; omega, rest, ?_, ?_⟩
    · simp [AttributeEntry.encode, hsize]
    · simp only [AttributeEntry.encode, hsize, id_eq, List.length_append, Nat.add_assoc]
  complete {a} o rest ha := by
    have hsize : (UInt32.ofNat a.data.length).toNat = a.data.length := by
      rw [UInt32.toNat_ofNat', Nat.mod_eq_of_lt ha]
    rw [AttributeEntry.encode, List.append_assoc, List.append_assoc]
    refine (exact_word.bind_complete trivial _ o _).trans ?_
    rw [exact_long.bind_complete trivial]
    refine ((exact_take _).bind_complete hsize.symm _ _ rest).trans (pure_ok.2 ⟨rfl, ?_⟩)
    simp only [id_eq, List.length_append, Nat.add_assoc]

/-- A field or a method. -/
theorem exact_member : Exact member Member.encode Member.Fits where
  sound {o xs m c} h := by
    obtain ⟨header, rest₁, hlen, hxs, h⟩ := (exact_take 6).bind_sound h
    obtain ⟨attributes, rest, hfit, hrest₁, h⟩ := exact_entry.counted.bind_sound h
    obtain ⟨hm, hc⟩ := pure_ok.1 h
    subst hxs hrest₁ hm hc
    exact ⟨⟨hlen, hfit⟩, rest, by simp [Member.encode], by simp [Member.encode, Nat.add_assoc]⟩
  complete {m} o rest hm := by
    rw [Member.encode, List.append_assoc]
    refine ((exact_take 6).bind_complete hm.1 _ o _).trans ?_
    rw [exact_entry.counted.bind_complete hm.2]
    exact pure_ok.2 ⟨rfl, by simp [Nat.add_assoc]⟩

/-- An index that leads to a class name. -/
theorem exact_classIndex (pool : Pool) :
    Exact (classIndex pool) Bytes.ofWord (fun i => ∃ name, pool.className i = .ok name) where
  sound {o xs i c} h := by
    obtain ⟨i', rest, -, hxs, h⟩ := exact_word.bind_sound h
    obtain ⟨name, hname, h⟩ := check_ok.1 h
    obtain ⟨hi, hc⟩ := pure_ok.1 h
    subst hi
    exact ⟨⟨name, hname⟩, rest, hxs, hc⟩
  complete {i} o rest hi := by
    obtain ⟨name, hname⟩ := hi
    refine (exact_word.bind_complete trivial _ o rest).trans ?_
    exact check_ok.2 ⟨name, hname, pure_ok.2 ⟨rfl, rfl⟩⟩

/-- An attribute whose name leads to text. -/
theorem exact_namedEntry (pool : Pool) :
    Exact (namedEntry pool) AttributeEntry.encode
      (fun a => a.Fits ∧ ∃ text, pool.text a.name = .ok text) where
  sound {o xs a c} h := by
    obtain ⟨a', rest, hfit, hxs, h⟩ := exact_entry.bind_sound h
    obtain ⟨text, htext, h⟩ := check_ok.1 h
    obtain ⟨ha, hc⟩ := pure_ok.1 h
    subst ha
    exact ⟨⟨hfit, text, htext⟩, rest, hxs, hc⟩
  complete {a} o rest ha := by
    obtain ⟨hfit, text, htext⟩ := ha
    refine (exact_entry.bind_complete hfit _ o rest).trans ?_
    exact check_ok.2 ⟨text, htext, pure_ok.2 ⟨rfl, rfl⟩⟩

/-! ## The whole layout -/

/-- What the reader of layouts takes is the writing of one that resolves. -/
theorem layout_sound {o : Nat} {xs : Bytes} {l : Layout} {c : Cursor}
    (h : layout ⟨o, xs⟩ = .ok (l, c)) :
    (l.Grammatical ∧ l.Resolves) ∧
      ∃ rest, xs = l.encode ++ rest ∧ c = ⟨o + l.encode.length, rest⟩ := by
  -- field by field, in the order of the format
  obtain ⟨found, rest₁, -, hxs, h⟩ := exact_long.bind_sound h
  by_cases hmagic : found ≠ magic
  · rw [if_pos hmagic] at h
    cases h
  rw [if_neg hmagic] at h
  obtain ⟨minor, rest₂, -, hrest₁, h⟩ := exact_word.bind_sound h
  obtain ⟨major, rest₃, -, hrest₂, h⟩ := exact_word.bind_sound h
  obtain ⟨poolCount, rest₄, -, hrest₃, h⟩ := exact_word.bind_sound h
  obtain ⟨constants, rest₅, ⟨hplaced, hfits⟩, hrest₄, h⟩ := (exact_constants _).bind_sound h
  obtain ⟨accessFlags, rest₆, -, hrest₅, h⟩ := exact_word.bind_sound h
  obtain ⟨thisClass, rest₇, -, hrest₆, h⟩ := exact_word.bind_sound h
  obtain ⟨superClass, rest₈, -, hrest₇, h⟩ := exact_word.bind_sound h
  obtain ⟨name, hname, h⟩ := check_ok.1 h
  obtain ⟨hsuper, h⟩ := check_if_ok.1 h
  obtain ⟨interfaces, rest₉, ⟨hlen, hinterfaces⟩, hrest₈, h⟩ :=
    (exact_classIndex _).counted.bind_sound h
  obtain ⟨fields, rest₁₀, hfields, hrest₉, h⟩ := exact_member.counted.bind_sound h
  obtain ⟨methods, rest₁₁, hmethods, hrest₁₀, h⟩ := exact_member.counted.bind_sound h
  obtain ⟨attributes, rest, ⟨hcount, hattributes⟩, hrest₁₁, h⟩ :=
    (exact_namedEntry _).counted.bind_sound h
  obtain ⟨hl, hc⟩ := pure_ok.1 h
  rw [not_not] at hmagic
  subst hxs hmagic hrest₁ hrest₂ hrest₃ hrest₄ hrest₅ hrest₆ hrest₇ hrest₈ hrest₉ hrest₁₀ hrest₁₁
    hl hc
  refine ⟨⟨⟨hplaced, hfits, hlen, hfields, hmethods, hcount, fun a ha => (hattributes a ha).1⟩,
    ⟨⟨name, hname⟩, hsuper, hinterfaces, fun a ha => (hattributes a ha).2⟩⟩, rest, ?_, ?_⟩
  · simp only [Layout.encode, Layout.encodeBody, List.append_assoc]
  · simp only [Layout.encode, Layout.encodeBody, List.length_append, Nat.add_assoc]

/-- The writing of a layout that resolves is taken as a whole. -/
theorem layout_complete {l : Layout} (h : l.Grammatical ∧ l.Resolves) (o : Nat) (rest : Bytes) :
    layout ⟨o, l.encode ++ rest⟩ = .ok (l, ⟨o + l.encode.length, rest⟩) := by
  obtain ⟨hg, hr⟩ := h
  obtain ⟨name, hname⟩ := hr.thisClass
  simp only [Layout.encode, Layout.encodeBody, List.append_assoc]
  refine (exact_long.bind_complete trivial _ o _).trans ?_
  rw [if_neg (not_not_intro rfl)]
  refine (exact_word.bind_complete trivial _ _ _).trans ?_
  rw [exact_word.bind_complete trivial, exact_word.bind_complete trivial,
    (exact_constants _).bind_complete ⟨hg.placed, hg.constants⟩]
  refine (exact_word.bind_complete trivial _ _ _).trans ?_
  rw [exact_word.bind_complete trivial, exact_word.bind_complete trivial]
  refine check_ok.2 ⟨name, hname, check_if_ok.2 ⟨hr.superClass, ?_⟩⟩
  refine ((exact_classIndex _).counted.bind_complete ⟨hg.interfaces, hr.interfaces⟩ _ _ _).trans ?_
  rw [exact_member.counted.bind_complete hg.fields, exact_member.counted.bind_complete hg.methods]
  refine ((exact_namedEntry _).counted.bind_complete
    ⟨hg.attributes.1, fun a ha => ⟨hg.attributes.2 a ha, hr.attributes a ha⟩⟩ _ _ _).trans ?_
  exact pure_ok.2 ⟨rfl, by simp only [List.length_append, Nat.add_assoc]⟩

/-- **The reader of layouts is exact** for those that their encoding spells
out and whose indices lead to what they must. -/
theorem exact_layout : Exact layout Layout.encode (fun l => l.Grammatical ∧ l.Resolves) :=
  ⟨layout_sound, fun o rest h => layout_complete h o rest⟩

end Reader

end ClassFile

end ClassWeave
