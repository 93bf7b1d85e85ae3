import ClassWeave.Proofs.ClassFile.Insertion
/-!
# ClassFile -- files that end early or go on

A reader needs some octets if it misses each of them: wherever they are cut,
it asks there for more than is left, and for nothing else
(`Reader.Needs`). Octets and words are needed as they are taken, and what is
read in a row is needed as a whole if its parts are (`Exact.needs_bind`): up
to the cut the reader goes on as if there were none. So every octet of a class
file is needed, down to the bodies of its constants and the attributes of its
members (`needs_layout`), and none behind it is taken
(`parse_self_delimiting`).
-/


namespace ClassWeave

namespace ClassFile

namespace Reader

variable {α β : Type} {r : Reader α} {e : α → Bytes} {G : α → Prop} {a : α} {xs ys : Bytes}

/-- **A reader that misses each of some octets**: in front of fewer of them it
asks for more than there are, at a place that it has come to. -/
def Needs (r : Reader α) (xs : Bytes) : Prop :=
  ∀ o k, k < xs.length → ∃ offset needed,
    r ⟨o, xs.take k⟩ = .error (.truncated offset needed) ∧
      offset ≤ o + k ∧ o + k < offset + needed

/-! ## Steps in a row -/

/-- A fault of a step is one of all that comes after it. -/
theorem bind_error {f : α → Reader β} {c : Cursor} {fault : FormatError}
    (h : r c = .error fault) : (r >>= f) c = .error fault := by
  change StateT.bind r f c = _
  simp only [StateT.bind, h]
  rfl

theorem needs_nil (r : Reader α) : Needs r [] := nofun

/-- A step that asks for a number of octets at once needs as many. -/
theorem needs_of_short {n : Nat}
    (h : ∀ o xs, xs.length < n → r ⟨o, xs⟩ = .error (.truncated o n)) (hlen : xs.length = n) :
    Needs r xs := by
  intro o k hk
  have hshort : (xs.take k).length < n := by
    rw [List.length_take]
    omega
  exact ⟨o, n, h o _ hshort, by omega, by omega⟩

/-- **What is read in a row is needed as a whole**: a cut in what the first
step takes is met there, and one behind it by the steps that follow. -/
theorem Exact.needs_bind (h : Exact r e G) (ha : G a) (hr : Needs r (e a)) {f : α → Reader β}
    (hf : Needs (f a) ys) : Needs (r >>= f) (e a ++ ys) := by
  intro o k hk
  rcases Nat.lt_or_ge k (e a).length with hlt | hge
  · obtain ⟨offset, needed, hfault, hplace⟩ := hr o k hlt
    refine ⟨offset, needed, ?_, hplace⟩
    rw [List.take_append_of_le_length (Nat.le_of_lt hlt)]
    exact bind_error hfault
  · rw [List.length_append] at hk
    obtain ⟨offset, needed, hfault, hlow, hhigh⟩ := hf (o + (e a).length) (k - (e a).length)
      (by omega)
    refine ⟨offset, needed, ?_, by omega, by omega⟩
    rw [List.take_append, List.take_of_length_le hge, h.bind_complete ha, hfault]

theorem Exact.needs_map (h : Exact r e G) (ha : G a) (hr : Needs r (e a)) (f : α → Reader β) :
    Needs (r >>= f) (e a) := by
  have hall := h.needs_bind (f := f) ha hr (needs_nil (f a))
  rwa [List.append_nil] at hall

/-- A look-up that finds something leaves what is needed. -/
theorem needs_check {ε : Type} {x : Except FormatError ε} {s : ε} {f : ε → Reader β}
    (hx : x = .ok s) (hf : Needs (f s) xs) : Needs ((liftM x : Reader ε) >>= f) xs := by
  intro o k hk
  subst hx
  exact hf o k hk

/-- So does a look-up on a condition, if it finds something under it. -/
theorem needs_check_if {ε : Type} {p : Prop} [Decidable p] {x : Except FormatError ε}
    {k : Reader β} (hx : p → ∃ s, x = .ok s) (hk : Needs k xs) :
    Needs (if p then (liftM x : Reader ε) >>= fun _ => k else k) xs := by
  by_cases hp : p
  · obtain ⟨s, hs⟩ := hx hp
    rw [if_pos hp]
    exact needs_check hs hk
  · rwa [if_neg hp]

/-! ## Octets and words -/

theorem needs_take (xs : Bytes) : Needs (take xs.length) xs := by
  refine needs_of_short (fun o ys hshort => ?_) rfl
  have hne : (ys.take xs.length).length ≠ xs.length := by
    rw [List.length_take]
    omega
  simp only [take, if_neg hne]

theorem needs_octet (x : UInt8) : Needs octet [x] := by
  refine needs_of_short (n := 1) (fun o ys hshort => ?_) rfl
  obtain rfl := List.length_eq_zero_iff.1 (Nat.lt_one_iff.1 hshort)
  rfl

theorem needs_word (w : UInt16) : Needs word (Bytes.ofWord w) := by
  refine needs_of_short (n := 2) (fun o ys hshort => ?_) rfl
  rcases ys with _ | ⟨x, _ | ⟨y, ys⟩⟩
  · rfl
  · rfl
  · simp only [List.length_cons] at hshort
    omega

theorem needs_long (w : UInt32) : Needs long (Bytes.ofLong w) := by
  refine needs_of_short (n := 4) (fun o ys hshort => ?_) rfl
  rcases ys with _ | ⟨x, _ | ⟨y, _ | ⟨z, _ | ⟨t, ys⟩⟩⟩⟩
  iterate 4 rfl
  simp only [List.length_cons] at hshort
  omega

/-! ## Items in a row -/

/-- Items in a row are needed if each of them is. -/
theorem needs_manyOnto (h : Exact r e G) (hr : ∀ a, G a → Needs r (e a)) {bs : List α}
    (hbs : ∀ b ∈ bs, G b) (acc : List α) : Needs (manyOnto r bs.length acc) (bs.flatMap e) := by
  induction bs generalizing acc with
  | nil => exact needs_nil _
  | cons b bs ih =>
    obtain ⟨hb, hrest⟩ := List.forall_mem_cons.1 hbs
    have hstep : manyOnto r (b :: bs).length acc =
        r >>= fun b => manyOnto r bs.length (b :: acc) := by
      funext c
      change manyOnto r (bs.length + 1) acc c = StateT.bind r _ c
      simp only [manyOnto, StateT.bind]
      rcases r c with fault | ⟨b', c'⟩ <;> rfl
    rw [hstep, List.flatMap_cons]
    exact h.needs_bind hb (hr b hb) (ih hrest _)

/-- **A counted list is needed if its items are.** -/
theorem needs_counted (h : Exact r e G) (hr : ∀ a, G a → Needs r (e a)) {as : List α}
    (has : as.length < 65536 ∧ ∀ a ∈ as, G a) : Needs (counted r) (encodeCounted e as) := by
  have hcount : (UInt16.ofNat as.length).toNat = as.length := by
    rw [UInt16.toNat_ofNat', Nat.mod_eq_of_lt has.1]
  refine exact_word.needs_bind trivial (needs_word _) ?_
  rw [many, hcount]
  exact needs_manyOnto h hr has.2 []

/-! ## Parts of a class file -/

/-- A constant is needed, whatever its tag. -/
theorem needs_constant {a : Constant} (ha : a.Fits) (index : Nat) :
    Needs (constant index) a.encode := by
  cases a with
  | utf8 text =>
    have hsize : (UInt16.ofNat text.length).toNat = text.length := by
      rw [UInt16.toNat_ofNat', Nat.mod_eq_of_lt ha]
    have henc : (Constant.utf8 text).encode =
        [1] ++ (Bytes.ofWord (UInt16.ofNat text.length) ++ text) := rfl
    rw [henc]
    refine exact_octet.needs_bind (a := 1) trivial (needs_octet 1) ?_
    rw [if_pos rfl]
    refine exact_word.needs_bind trivial (needs_word _) ?_
    rw [hsize]
    exact (exact_take text.length).needs_map rfl (needs_take text) _
  | classRef name =>
    have henc : (Constant.classRef name).encode = [7] ++ Bytes.ofWord name := rfl
    rw [henc]
    refine exact_octet.needs_bind (a := 7) trivial (needs_octet 7) ?_
    rw [if_neg (by decide), if_pos rfl]
    exact exact_word.needs_map trivial (needs_word name) _
  | other kind body =>
    have henc : (Constant.other kind body).encode = [kind.tag] ++ body := rfl
    have hsize : kind.size = body.length := ha.symm
    rw [henc]
    refine exact_octet.needs_bind (a := kind.tag) trivial (needs_octet kind.tag) ?_
    rw [if_neg (by cases kind <;> decide), if_neg (by cases kind <;> decide),
      ConstantKind.ofTag?_tag]
    simp only [hsize]
    exact (exact_take body.length).needs_map rfl (needs_take body) _

/-- Constants that fill a pool are needed. -/
theorem needs_constantsOnto {count : Nat} {cs : List Constant} :
    ∀ {next} (acc : List Constant), Placed count next cs → (∀ a ∈ cs, a.Fits) →
      Needs (constantsOnto count (count - next) acc) (cs.flatMap Constant.encode) := by
  induction cs with
  | nil => exact fun _ _ _ => needs_nil _
  | cons a cs ih =>
    intro next acc hpl hfit o k hk
    obtain ⟨ha, hcs⟩ := List.forall_mem_cons.1 hfit
    rw [List.flatMap_cons] at hk ⊢
    rw [constantsOnto_step hpl.1]
    -- the cut is in the constant for the slot, or in those behind it
    rcases Nat.lt_or_ge k a.encode.length with hlt | hge
    · obtain ⟨offset, needed, hfault, hplace⟩ := needs_constant ha next o k hlt
      refine ⟨offset, needed, ?_, hplace⟩
      rw [List.take_append_of_le_length (Nat.le_of_lt hlt), hfault]
    · rw [List.length_append] at hk
      obtain ⟨offset, needed, hfault, hlow, hhigh⟩ := ih (a :: acc) hpl.2 hcs
        (o + a.encode.length) (k - a.encode.length) (by omega)
      refine ⟨offset, needed, ?_, by omega, by omega⟩
      rw [List.take_append, List.take_of_length_le hge, constant_complete ha]
      exact hfault

/-- An attribute is needed. -/
theorem needs_entry {a : AttributeEntry} (ha : a.Fits) : Needs entry a.encode := by
  have hsize : (UInt32.ofNat a.data.length).toNat = a.data.length := by
    rw [UInt32.toNat_ofNat', Nat.mod_eq_of_lt ha]
  rw [AttributeEntry.encode, List.append_assoc]
  refine exact_word.needs_bind trivial (needs_word _) ?_
  refine exact_long.needs_bind trivial (needs_long _) ?_
  rw [hsize]
  exact (exact_take a.data.length).needs_map rfl (needs_take a.data) _

theorem needs_member {m : Member} (hm : m.Fits) : Needs member m.encode := by
  refine (exact_take 6).needs_bind (a := m.header) hm.1 (hm.1 ▸ needs_take m.header) ?_
  exact exact_entry.counted.needs_map hm.2
    (needs_counted exact_entry (fun _ ha => needs_entry ha) hm.2) _

theorem needs_classIndex (pool : Pool) (i : UInt16) :
    Needs (classIndex pool) (Bytes.ofWord i) :=
  exact_word.needs_map trivial (needs_word i) _

theorem needs_namedEntry (pool : Pool) {a : AttributeEntry} (ha : a.Fits) :
    Needs (namedEntry pool) a.encode :=
  exact_entry.needs_map ha (needs_entry ha) _

/-- **Every octet of a class file is needed.** -/
theorem needs_layout {l : Layout} (hg : l.Grammatical) (hr : l.Resolves) :
    Needs layout l.encode := by
  obtain ⟨name, hname⟩ := hr.thisClass
  simp only [Layout.encode, Layout.encodeBody, List.append_assoc]
  refine exact_long.needs_bind trivial (needs_long _) ?_
  rw [if_neg (not_not_intro rfl)]
  refine exact_word.needs_bind trivial (needs_word _) ?_
  refine exact_word.needs_bind trivial (needs_word _) ?_
  refine exact_word.needs_bind trivial (needs_word _) ?_
  refine (exact_constants l.poolCount).needs_bind ⟨hg.placed, hg.constants⟩
    (needs_constantsOnto [] hg.placed hg.constants) ?_
  refine exact_word.needs_bind trivial (needs_word _) ?_
  refine exact_word.needs_bind trivial (needs_word _) ?_
  refine exact_word.needs_bind trivial (needs_word _) ?_
  refine needs_check hname (needs_check_if hr.superClass ?_)
  have hattributes : l.attributes.length < 65536 ∧
      ∀ a ∈ l.attributes, a.Fits ∧ ∃ text, l.pool.text a.name = .ok text :=
    ⟨hg.attributes.1, fun a ha => ⟨hg.attributes.2 a ha, hr.attributes a ha⟩⟩
  refine (exact_classIndex _).counted.needs_bind ⟨hg.interfaces, hr.interfaces⟩
    (needs_counted (exact_classIndex _) (fun i _ => needs_classIndex _ i)
      ⟨hg.interfaces, hr.interfaces⟩) ?_
  refine exact_member.counted.needs_bind hg.fields
    (needs_counted exact_member (fun _ => needs_member) hg.fields) ?_
  refine exact_member.counted.needs_bind hg.methods
    (needs_counted exact_member (fun _ => needs_member) hg.methods) ?_
  exact (exact_namedEntry _).counted.needs_map hattributes
    (needs_counted (exact_namedEntry _) (fun _ ha => needs_namedEntry _ ha.1) hattributes) _

end Reader

/-! ## Files that end early or go on -/

/-- **Class files end where they say**: of octets that are read as a class
file, no fewer are, for where they are cut the reader asks for more than is
left; and no more are, for what is behind them is counted as trailing. So no
class file is the beginning of another. -/
theorem parse_self_delimiting {b : Bytes} {c : ClassFile} (hc : parse b = .ok c) :
    (∀ k < b.length, ∃ offset needed, parse (b.take k) = .error (.truncated offset needed) ∧
      offset ≤ k ∧ k < offset + needed) ∧
    (∀ more, more ≠ [] → parse (b ++ more) = .error (.trailing more.length)) ∧
    ∀ b' c', parse b' = .ok c' → b <+: b' → b' = b := by
  obtain ⟨l, hread, -⟩ := parse_ok.1 hc
  obtain ⟨⟨hg, hr⟩, rfl⟩ := Layout.read_ok.1 hread
  have hmore : ∀ more, more ≠ [] → parse (l.encode ++ more) = .error (.trailing more.length) := by
    intro more hne
    rw [parse, Layout.read, Reader.layout_complete ⟨hg, hr⟩]
    simp only [if_neg hne]
    rfl
  refine ⟨fun k hk => ?_, hmore, fun b' c' hc' hprefix => ?_⟩
  · obtain ⟨offset, needed, hfault, hlow, hhigh⟩ := Reader.needs_layout hg hr 0 k hk
    refine ⟨offset, needed, ?_, by omega, by omega⟩
    rw [parse, Layout.read, hfault]
    rfl
  · obtain ⟨more, rfl⟩ := hprefix
    by_contra hne
    rw [hmore more (mt (fun h => by rw [h, List.append_nil]) hne)] at hc'
    cases hc'

/-- A class that ends its pool in a `long`, cut within it and gone on behind
its end. -/
theorem parse_self_delimiting_endingWide :
    parse (Layout.endingWide 5).encode = .ok (Layout.endingWide 5).view ∧
      (∃ offset needed, parse ((Layout.endingWide 5).encode.take 20) =
        .error (.truncated offset needed) ∧ offset ≤ 20 ∧ 20 < offset + needed) ∧
      parse ((Layout.endingWide 5).encode ++ [0, 0]) = .error (.trailing 2) := by
  have hc : parse (Layout.endingWide 5).encode = .ok (Layout.endingWide 5).view := by decide
  obtain ⟨hless, hmore, -⟩ := parse_self_delimiting hc
  exact ⟨hc, hless 20 (by decide), hmore [0, 0] (List.cons_ne_nil _ _)⟩

end ClassFile

end ClassWeave
