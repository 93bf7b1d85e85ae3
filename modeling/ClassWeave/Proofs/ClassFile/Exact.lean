import ClassWeave.ClassFile.Reader
/-!
# ClassFile -- readers that are exact

A reader is exact for a way of writing (`Reader.Exact`) when what it takes
off the front of a file is the writing of what it gives, and when it takes
the writing of each good item whatever follows. Exact readers compose: in a
row (`Exact.bind_sound`, `Exact.bind_complete`), and in a counted list
(`Exact.counted`). That the writing of good items can be told apart is then
no further argument (`Exact.prefix_unique`).
-/


namespace ClassWeave

namespace ClassFile

namespace Reader

variable {α β : Type}

/-- **A reader that takes exactly the writing of good items**: what it
takes is the writing of the good item that it gives, and in front of
anything else it takes the writing of every good item. -/
structure Exact (r : Reader α) (encode : α → Bytes) (Good : α → Prop) : Prop where
  sound : ∀ {o xs a c}, r ⟨o, xs⟩ = .ok (a, c) →
    Good a ∧ ∃ rest, xs = encode a ++ rest ∧ c = ⟨o + (encode a).length, rest⟩
  complete : ∀ {a} (o rest), Good a →
    r ⟨o, encode a ++ rest⟩ = .ok (a, ⟨o + (encode a).length, rest⟩)

/-! ## Steps in a row -/

/-- A step after another succeeds where both do. -/
theorem bind_ok {r : Reader α} {f : α → Reader β} {c c'' : Cursor} {b : β} :
    (r >>= f) c = .ok (b, c'') ↔ ∃ a c', r c = .ok (a, c') ∧ f a c' = .ok (b, c'') := by
  change StateT.bind r f c = _ ↔ _
  unfold StateT.bind
  rcases h : r c with e | ⟨a, c'⟩
  · simp [bind, Except.bind]
  · constructor
    · intro hf
      exact ⟨a, c', rfl, hf⟩
    · rintro ⟨a', c'', heq, hf⟩
      obtain ⟨rfl, rfl⟩ := Prod.mk.inj (Except.ok.inj heq)
      exact hf

theorem lift_ok {x : Except FormatError α} {c c' : Cursor} {a : α} :
    (liftM x : Reader α) c = .ok (a, c') ↔ x = .ok a ∧ c' = c := by
  rcases x with fault | b
  · simp [liftM, monadLift, MonadLift.monadLift, StateT.lift, bind, Except.bind]
  · simp [liftM, monadLift, MonadLift.monadLift, StateT.lift, bind, Except.bind, Pure.pure,
      Except.pure, eq_comm]

theorem pure_ok {a b : α} {c c' : Cursor} :
    (Pure.pure a : Reader α) c = .ok (b, c') ↔ b = a ∧ c' = c := by
  change (Except.ok (a, c) : Except FormatError (α × Cursor)) = .ok (b, c') ↔ _
  simp [eq_comm]

/-- A look-up whose finding is not needed further has only to succeed. -/
theorem check_ok {ε : Type} {x : Except FormatError ε} {f : ε → Reader β} {c c' : Cursor}
    {b : β} :
    ((liftM x : Reader ε) >>= f) c = .ok (b, c') ↔ ∃ s, x = .ok s ∧ f s c = .ok (b, c') := by
  rw [bind_ok]
  constructor
  · rintro ⟨s, c₁, h₁, h₂⟩
    obtain ⟨hs, rfl⟩ := lift_ok.1 h₁
    exact ⟨s, hs, h₂⟩
  · rintro ⟨s, hs, h⟩
    exact ⟨s, c, lift_ok.2 ⟨hs, rfl⟩, h⟩

/-- A look-up on a condition has to succeed only under that condition. -/
theorem check_if_ok {ε : Type} {p : Prop} [Decidable p] {x : Except FormatError ε}
    {k : Reader β} {c c' : Cursor} {b : β} :
    (if p then (liftM x : Reader ε) >>= fun _ => k else k) c = .ok (b, c') ↔
      (p → ∃ s, x = .ok s) ∧ k c = .ok (b, c') := by
  by_cases hp : p
  · rw [if_pos hp, check_ok]
    constructor
    · rintro ⟨s, hs, hk⟩
      exact ⟨fun _ => ⟨s, hs⟩, hk⟩
    · rintro ⟨hx, hk⟩
      obtain ⟨s, hs⟩ := hx hp
      exact ⟨s, hs, hk⟩
  · rw [if_neg hp]
    exact ⟨fun hk => ⟨fun h => absurd h hp, hk⟩, And.right⟩

namespace Exact

variable {r : Reader α} {e : α → Bytes} {G : α → Prop}

/-- **What follows does not matter**: if the writings of two good items
start the same octets, they are one item. -/
theorem prefix_unique (h : Exact r e G) {a a' : α} (ha : G a) (ha' : G a') {x x' : Bytes}
    (heq : e a ++ x = e a' ++ x') : a = a' ∧ x = x' := by
  have h₁ := h.complete 0 x ha
  rw [heq, h.complete 0 x' ha'] at h₁
  obtain ⟨h₂, h₃⟩ := Prod.mk.inj (Except.ok.inj h₁)
  exact ⟨h₂.symm, (congrArg Cursor.rest h₃).symm⟩

/-- What an exact reader took before the steps after it. -/
theorem bind_sound (h : Exact r e G) {f : α → Reader β} {o : Nat} {xs : Bytes} {b : β}
    {c : Cursor} (hb : (r >>= f) ⟨o, xs⟩ = .ok (b, c)) :
    ∃ a rest, G a ∧ xs = e a ++ rest ∧ f a ⟨o + (e a).length, rest⟩ = .ok (b, c) := by
  obtain ⟨a, c', hr, hf⟩ := bind_ok.1 hb
  obtain ⟨ha, rest, rfl, rfl⟩ := h.sound hr
  exact ⟨a, rest, ha, rfl, hf⟩

/-- The steps after an exact reader start behind what it takes. -/
theorem bind_complete (h : Exact r e G) {a : α} (ha : G a) (f : α → Reader β) (o : Nat)
    (rest : Bytes) : (r >>= f) ⟨o, e a ++ rest⟩ = f a ⟨o + (e a).length, rest⟩ := by
  change StateT.bind r f _ = _
  simp only [StateT.bind, h.complete o rest ha]
  rfl

end Exact

/-! ## Octets and words -/

/-- A run of octets of a length. -/
theorem exact_take (n : Nat) : Exact (take n) id (fun b => b.length = n) where
  sound {o xs a c} h := by
    simp only [take] at h
    split at h
    · next hn =>
      obtain ⟨rfl, rfl⟩ := Prod.mk.inj (Except.ok.inj h)
      exact ⟨hn, xs.drop n, (List.take_append_drop n xs).symm, by rw [id_eq, hn]⟩
    · cases h
  complete {a} o rest h := by
    subst h
    simp only [take, id_eq, List.take_left, List.drop_left, if_pos]

theorem exact_octet : Exact octet (fun a => [a]) (fun _ => True) where
  sound {o xs a c} h := by
    rcases xs with _ | ⟨x, rest⟩
    · cases h
    · obtain ⟨rfl, rfl⟩ := Prod.mk.inj (Except.ok.inj h)
      exact ⟨trivial, rest, rfl, rfl⟩
  complete _ _ _ := rfl

/-- A 16-bit word. -/
theorem exact_word : Exact word Bytes.ofWord (fun _ => True) where
  sound {o xs a c} h := by
    rcases xs with _ | ⟨x, _ | ⟨y, rest⟩⟩
    · cases h
    · cases h
    · obtain ⟨rfl, rfl⟩ := Prod.mk.inj (Except.ok.inj h)
      exact ⟨trivial, rest, by rw [Bytes.ofWord_word]; rfl, rfl⟩
  complete {a} o rest _ := by
    simp only [Bytes.ofWord, List.cons_append, List.nil_append, word, Bytes.word_ofWord,
      List.length_cons, List.length_nil]

/-- A 32-bit word. -/
theorem exact_long : Exact long Bytes.ofLong (fun _ => True) where
  sound {o xs a c} h := by
    rcases xs with _ | ⟨x, _ | ⟨y, _ | ⟨z, _ | ⟨w, rest⟩⟩⟩⟩
    iterate 4 cases h
    obtain ⟨rfl, rfl⟩ := Prod.mk.inj (Except.ok.inj h)
    exact ⟨trivial, rest, by rw [Bytes.ofLong_long]; rfl, rfl⟩
  complete {a} o rest _ := by
    simp only [Bytes.ofLong, List.cons_append, List.nil_append, long, Bytes.long_ofLong,
      List.length_cons, List.length_nil]

/-! ## Items in a row -/

section Many

variable {item : Reader α} {e : α → Bytes} {G : α → Prop}

/-- What items in a row take is the writing of each, one after another. -/
theorem manyOnto_sound (h : Exact item e G) {n : Nat} : ∀ {acc o xs as c},
    manyOnto item n acc ⟨o, xs⟩ = .ok (as, c) →
    ∃ bs rest, as = acc.reverse ++ bs ∧ bs.length = n ∧ (∀ b ∈ bs, G b) ∧
      xs = bs.flatMap e ++ rest ∧ c = ⟨o + (bs.flatMap e).length, rest⟩ := by
  induction n with
  | zero =>
    intro acc o xs as c hr
    obtain ⟨rfl, rfl⟩ := Prod.mk.inj (Except.ok.inj hr)
    exact ⟨[], xs, by simp, rfl, by simp, rfl, rfl⟩
  | succ n ih =>
    intro acc o xs as c hr
    simp only [manyOnto] at hr
    split at hr
    · cases hr
    · next a c' ha =>
      obtain ⟨hG, rest, rfl, rfl⟩ := h.sound ha
      obtain ⟨bs, rest', rfl, hn, hbs, rfl, rfl⟩ := ih hr
      refine ⟨a :: bs, rest', by simp, by rw [List.length_cons, hn], ?_, by simp, ?_⟩
      · exact List.forall_mem_cons.2 ⟨hG, hbs⟩
      · rw [List.flatMap_cons, List.length_append, Nat.add_assoc]

/-- Good items written in a row are all taken. -/
theorem manyOnto_complete (h : Exact item e G) {bs : List α} : ∀ (acc : List α) (o rest),
    (∀ b ∈ bs, G b) → manyOnto item bs.length acc ⟨o, bs.flatMap e ++ rest⟩ =
      .ok (acc.reverse ++ bs, ⟨o + (bs.flatMap e).length, rest⟩) := by
  induction bs with
  | nil =>
    intro acc o rest _
    simp [manyOnto]
  | cons b bs ih =>
    intro acc o rest hG
    obtain ⟨hb, hbs⟩ := List.forall_mem_cons.1 hG
    simp only [List.length_cons, manyOnto, List.flatMap_cons, List.append_assoc,
      h.complete o _ hb]
    rw [ih _ _ _ hbs, List.length_append, ← Nat.add_assoc, List.reverse_cons, List.append_assoc]
    rfl

/-- A given number of items. -/
theorem Exact.many (h : Exact item e G) (n : Nat) :
    Exact (many item n) (List.flatMap e) (fun as => as.length = n ∧ ∀ a ∈ as, G a) where
  sound hr := by
    obtain ⟨bs, rest, rfl, hn, hG, h₁, h₂⟩ := manyOnto_sound h hr
    exact ⟨⟨hn, hG⟩, rest, h₁, h₂⟩
  complete o rest ha := by
    obtain ⟨rfl, hG⟩ := ha
    exact manyOnto_complete h [] o rest hG

/-- **A counted list is exact if its items are**, as long as its count is
one that the word before it can hold. -/
theorem Exact.counted (h : Exact item e G) :
    Exact (counted item) (encodeCounted e) (fun as => as.length < 65536 ∧ ∀ a ∈ as, G a) where
  sound {o xs as c} hr := by
    obtain ⟨n, rest₁, -, hxs, hr⟩ := exact_word.bind_sound hr
    obtain ⟨⟨hn, hG⟩, rest, hrest, hc⟩ := (h.many n.toNat).sound hr
    subst hxs hrest hc
    have hcount : UInt16.ofNat as.length = n := by rw [hn, UInt16.ofNat_toNat]
    refine ⟨⟨hn ▸ n.toNat_lt, hG⟩, rest, ?_, ?_⟩
    · rw [encodeCounted, hcount, List.append_assoc]
    · rw [encodeCounted, hcount, List.length_append, Nat.add_assoc]
  complete {as} o rest ha := by
    have hcount : (UInt16.ofNat as.length).toNat = as.length := by
      rw [UInt16.toNat_ofNat', Nat.mod_eq_of_lt ha.1]
    rw [encodeCounted, List.append_assoc]
    refine (exact_word.bind_complete trivial _ o _).trans ?_
    rw [(h.many _).complete _ rest ⟨hcount.symm, ha.2⟩, List.length_append, Nat.add_assoc]

end Many

end Reader

end ClassFile

end ClassWeave
