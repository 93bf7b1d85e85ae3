import ClassWeave.Json.Reader
/-!
# Json -- what was written is read back

A document on one line reads back as itself (`Json.parse?_compact`),
whatever characters its texts hold. A text is read character by character,
each behind its own escape (`readText_escapeChar`); a value is read in front
of whatever does not go on with a digit, and the length of its own text is
bound enough (`TextOf`). Writing only adds to the end of a text, so the
text of a document is made of those of its parts.
-/


namespace ClassWeave

namespace Json

variable {cs rest : List Char} {fuel : Nat}

/-! ## Texts -/

/-- The characters of a text between quotes. -/
def inQuotes (s : String) : List Char := s.toList.flatMap fun c => (escapeChar c).toList

/-- A text in quotes, as characters. -/
theorem toList_quote (s : String) : (quote s).toList = '"' :: inQuotes s ++ ['"'] := by
  have hfold : ∀ (cs : List Char) (out : String),
      (cs.foldl (fun out c => out ++ escapeChar c) out).toList =
        out.toList ++ cs.flatMap fun c => (escapeChar c).toList := by
    intro cs
    induction cs with
    | nil => simp
    | cons c cs ih =>
      intro out
      rw [List.foldl_cons, ih, String.toList_append, List.flatMap_cons, List.append_assoc]
  rw [quote, String.toList_append, hfold]
  rfl

/-- The number of a control character is read from its two digits. -/
theorem hexNumber?_toHex : ∀ n < 32, ∃ a b, (Bytes.toHex [UInt8.ofNat n]).toList = [a, b] ∧
    hexNumber? '0' '0' a b = some n := by
  intro n hn
  refine ⟨Bytes.hexDigit (n / 16), Bytes.hexDigit (n % 16), ?_, ?_⟩ <;> revert n <;> decide

/-- **A character is read behind its escape**, whichever it has. -/
theorem readText_escapeChar (c : Char) (cs : List Char) :
    readText ((escapeChar c).toList ++ cs) = behind c (readText cs) := by
  have hnumber : ∀ n, c.toNat = n → c = Char.ofNat n := fun n h => by rw [← h, Char.ofNat_toNat]
  unfold escapeChar
  split
  · next h => subst h; simp [readText, escaped?]
  split
  · next h => subst h; simp [readText, escaped?]
  split
  · next h => subst h; simp [readText, escaped?]
  split
  · next h => subst h; simp [readText, escaped?]
  split
  · next h => subst h; simp [readText, escaped?]
  split
  · next h => rw [hnumber 8 h]; simp [readText, escaped?]
  split
  · next h => rw [hnumber 12 h]; simp [readText, escaped?]
  split
  · -- a control character is written by its number
    next h =>
    obtain ⟨a, b, hdigits, hread⟩ := hexNumber?_toHex c.toNat h
    rw [String.toList_append, hdigits]
    have hlow : ¬(0xD800 ≤ c.toNat ∧ c.toNat ≤ 0xDBFF) := by omega
    have hhigh : ¬(0xDC00 ≤ c.toNat ∧ c.toNat ≤ 0xDFFF) := by omega
    simp [readText, hread, hlow, hhigh, Char.ofNat_toNat]
  · next _ hback _ _ _ _ _ hcontrol =>
    simp [readText, hback, hcontrol]

/-- **A text is read up to the quote behind it.** -/
theorem readText_inQuotes (s : String) (rest : List Char) :
    readText (inQuotes s ++ '"' :: rest) = some (s.toList, rest) := by
  rw [inQuotes]
  induction s.toList with
  | nil => simp [readText]
  | cons c cs ih => rw [List.flatMap_cons, List.append_assoc, readText_escapeChar, ih]; rfl

/-! ## Numbers -/

/-- What does not go on with a digit. -/
def Ends (rest : List Char) : Prop := ∀ c ∈ rest.head?, c.isDigit = false

/-- **A number is read from its digits**, in front of what does not go on
with one. -/
theorem readNat_toDigits (n : Nat) (hrest : Ends rest) :
    readNat (Nat.toDigits 10 n ++ rest) = some (n, rest) := by
  have hdigits : ∀ c ∈ Nat.toDigits 10 n, c.isDigit = true := fun c hc =>
    Nat.isDigit_of_mem_toDigits (by decide) (by decide) hc
  have hstop : rest.takeWhile Char.isDigit = [] ∧ rest.dropWhile Char.isDigit = rest := by
    rcases rest with _ | ⟨c, rest⟩
    · exact ⟨rfl, rfl⟩
    · have hc : c.isDigit = false := hrest c rfl
      simp [hc]
  rw [readNat, List.takeWhile_append_of_pos hdigits, List.dropWhile_append_of_pos hdigits, hstop.1,
    hstop.2, List.append_nil, Nat.ofDigitChars_ten_toDigits]
  simp

/-! ## Values -/

theorem skipBlanks_cons {c : Char} (h : isBlank c = false) : skipBlanks (c :: cs) = c :: cs := by
  rw [skipBlanks, List.dropWhile_cons_of_neg (by simp [h])]

/-- What a value can begin with where an array could end as well. -/
def Opens (cs : List Char) : Prop := ∃ c tail, cs = c :: tail ∧ isBlank c = false ∧ c ≠ ']'

/-- **What the text of a document is**: what is added where it is written,
and what it is read from. -/
structure TextOf (v : Json) (cs : List Char) : Prop where
  written : ∀ out, (write none out v).toList = out.toList ++ cs
  opens : Opens cs
  read : ∀ fuel rest, cs.length ≤ fuel → Ends rest → readValue fuel (cs ++ rest) = some (v, rest)

/-- What the text of the items behind another is. -/
structure ItemsText (items : List Json) (cs : List Char) : Prop where
  written : ∀ out, (writeItems none out items).toList = out.toList ++ cs
  ends : ∀ rest, Ends (cs ++ ']' :: rest)
  read : ∀ fuel rest, cs.length < fuel → readItems fuel (cs ++ ']' :: rest) = some (items, rest)

/-- What the text of the fields behind another is. -/
structure FieldsText (fields : List (String × Json)) (cs : List Char) : Prop where
  written : ∀ out, (writeFields none out fields).toList = out.toList ++ cs
  ends : ∀ rest, Ends (cs ++ '\x7d' :: rest)
  read : ∀ fuel rest, cs.length < fuel →
    readFields fuel (cs ++ '\x7d' :: rest) = some (fields, rest)

variable {v : Json} {items : List Json} {fields : List (String × Json)} {ds : List Char}

-- every text below is written and read by one step of each of these
attribute [local simp] write writeItems writeFields readValue readItems readField readFields

theorem textOf_null : TextOf .null "null".toList where
  written out := by rw [write, String.toList_append]
  opens := ⟨'n', _, rfl, by decide, by decide⟩
  read fuel rest hfuel _ := by
    rcases fuel with _ | fuel
    · simp at hfuel
    · simp [skipBlanks, isBlank]

/-- The text of a truth value. -/
theorem textOf_bool (b : Bool) : TextOf (.bool b) (if b then "true" else "false").toList where
  written out := by rw [write, String.toList_append]
  opens := by
    cases b
    · exact ⟨'f', _, rfl, by decide, by decide⟩
    · exact ⟨'t', _, rfl, by decide, by decide⟩
  read fuel rest hfuel _ := by
    rcases fuel with _ | fuel
    · cases b <;> simp at hfuel
    · cases b <;> simp [skipBlanks, isBlank]

theorem isBlank_of_isDigit {c : Char} (h : c.isDigit = true) : isBlank c = false := by
  have hne : ∀ d : Char, d.isDigit = false → c ≠ d := fun d hd heq => by rw [heq, hd] at h; cases h
  simp [isBlank, hne ' ' (by decide), hne '\n' (by decide), hne '\r' (by decide),
    hne '\t' (by decide)]

/-- What begins with a digit is read as a number. -/
theorem readValue_digit {c : Char} (h : c.isDigit = true) :
    readValue (fuel + 1) (c :: cs) =
      (readNat (c :: cs)).bind fun p => some (.number p.1, p.2) := by
  have hne : ∀ d : Char, d.isDigit = false → c ≠ d := fun d hd heq => by rw [heq, hd] at h; cases h
  rw [readValue, skipBlanks_cons (isBlank_of_isDigit h)]
  split
  all_goals first
    | rfl
    | next heq => exact absurd (List.cons.inj heq).1 (hne _ (by decide))

theorem exists_first_digit (n : Nat) :
    ∃ c tail, Nat.toDigits 10 n = c :: tail ∧ c.isDigit = true := by
  obtain ⟨c, tail, hdigits⟩ := List.exists_cons_of_ne_nil (Nat.toDigits_ne_nil (b := 10) (n := n))
  refine ⟨c, tail, hdigits, Nat.isDigit_of_mem_toDigits (b := 10) (n := n) ?_ ?_ ?_⟩
  · decide
  · decide
  · simp [hdigits]

/-- The text of a natural number. -/
theorem textOf_ofNat (n : Nat) : TextOf (.number n) (Nat.toDigits 10 n) where
  written out := by
    rw [write, String.toList_append]
    exact congrArg (out.toList ++ ·) Nat.toList_repr
  opens := by
    obtain ⟨c, tail, hdigits, hc⟩ := exists_first_digit n
    refine ⟨c, tail, hdigits, isBlank_of_isDigit hc, ?_⟩
    rintro rfl
    cases hc
  read fuel rest hfuel hrest := by
    obtain ⟨c, tail, hdigits, hc⟩ := exists_first_digit n
    rcases fuel with _ | fuel
    · simp [hdigits] at hfuel
    · have hnat := readNat_toDigits n hrest
      rw [hdigits, List.cons_append] at hnat ⊢
      rw [readValue_digit hc, hnat]
      rfl

/-- The text of a negative number. -/
theorem textOf_negSucc (n : Nat) : TextOf (.number (.negSucc n)) ('-' :: Nat.toDigits 10 (n + 1)) where
  written out := by
    have htext : (toString (Int.negSucc n)).toList = "-".toList ++ (Nat.repr (n + 1)).toList :=
      String.toList_append
    rw [write, String.toList_append, htext, Nat.toList_repr]
    rfl
  opens := ⟨'-', _, rfl, by decide, by decide⟩
  read fuel rest hfuel hrest := by
    rcases fuel with _ | fuel
    · simp at hfuel
    · simp [skipBlanks_cons (show isBlank '-' = false by decide),
        readNat_toDigits (n + 1) hrest]
      omega

theorem textOf_string (s : String) : TextOf (.string s) ('"' :: inQuotes s ++ ['"']) where
  written out := by rw [write, String.toList_append, toList_quote]
  opens := ⟨'"', _, rfl, by decide, by decide⟩
  read fuel rest hfuel _ := by
    rcases fuel with _ | fuel
    · simp at hfuel
    · simp [skipBlanks, isBlank, readText_inQuotes]

theorem textOf_noItems : TextOf (.array []) ['[', ']'] where
  written out := by rw [write, String.toList_append]; rfl
  opens := ⟨'[', _, rfl, by decide, by decide⟩
  read fuel rest hfuel _ := by
    rcases fuel with _ | fuel
    · simp at hfuel
    · simp [skipBlanks, isBlank]

/-- The text of items. -/
theorem TextOf.array (hv : TextOf v cs) (hitems : ItemsText items ds) :
    TextOf (.array (v :: items)) ('[' :: cs ++ ds ++ [']']) where
  written out := by simp [breakAt, hitems.written, hv.written]
  opens := ⟨'[', _, rfl, by decide, by decide⟩
  read fuel rest hfuel _ := by
    rcases fuel with _ | fuel
    · simp at hfuel
    obtain ⟨c, tail, rfl, hblank, hend⟩ := hv.opens
    simp only [List.length_append, List.length_cons, List.length_nil, List.cons_append] at hfuel
    have hfirst := hv.read fuel (ds ++ ']' :: rest) (by simp; omega) (hitems.ends rest)
    have hothers := hitems.read fuel rest (by omega)
    simp only [List.cons_append, List.append_assoc, List.nil_append, readValue,
      skipBlanks_cons (show isBlank '[' = false by decide), skipBlanks_cons hblank] at hfirst ⊢
    simp [hfirst, hothers, hend]

theorem itemsText_nil : ItemsText [] [] where
  written out := by simp
  ends rest := by simp [Ends]
  read fuel rest hfuel := by
    rcases fuel with _ | fuel
    · simp at hfuel
    · simp [skipBlanks, isBlank]

/-- The text of further items. -/
theorem ItemsText.cons (hv : TextOf v cs) (hitems : ItemsText items ds) :
    ItemsText (v :: items) (',' :: cs ++ ds) where
  written out := by simp [breakAt, hitems.written, hv.written]
  ends rest := by simp [Ends]
  read fuel rest hfuel := by
    rcases fuel with _ | fuel
    · simp at hfuel
    simp only [List.length_append, List.length_cons, List.cons_append] at hfuel
    have hfirst := hv.read fuel (ds ++ ']' :: rest) (by omega) (hitems.ends rest)
    have hothers := hitems.read fuel rest (by omega)
    simp [skipBlanks_cons (show isBlank ',' = false by decide), hfirst, hothers]

/-- A field is read from its key and the text of its value. -/
theorem TextOf.readField (hv : TextOf v cs) (key : String) (hfuel : cs.length < fuel)
    (hrest : Ends rest) :
    readField fuel ('"' :: inQuotes key ++ '"' :: ':' :: cs ++ rest) = some ((key, v), rest) := by
  rcases fuel with _ | fuel
  · simp at hfuel
  have hread := hv.read fuel rest (by omega) hrest
  simp [skipBlanks_cons (show isBlank '"' = false by decide), readText_inQuotes,
    skipBlanks_cons (show isBlank ':' = false by decide), hread]

theorem textOf_noFields : TextOf (.object []) ['\x7b', '\x7d'] where
  written out := by rw [write, String.toList_append]; rfl
  opens := ⟨'\x7b', _, rfl, by decide, by decide⟩
  read fuel rest hfuel _ := by
    rcases fuel with _ | fuel
    · simp at hfuel
    · simp [skipBlanks, isBlank]

/-- The text of fields. -/
theorem TextOf.object (hv : TextOf v cs) (key : String) (hfields : FieldsText fields ds) :
    TextOf (.object ((key, v) :: fields))
      ('\x7b' :: '"' :: inQuotes key ++ '"' :: ':' :: cs ++ ds ++ ['\x7d']) where
  written out := by
    simp [breakAt, colon, toList_quote, hfields.written, hv.written]
  opens := ⟨'\x7b', _, rfl, by decide, by decide⟩
  read fuel rest hfuel _ := by
    rcases fuel with _ | fuel
    · simp at hfuel
    simp only [List.length_append, List.length_cons, List.length_nil, List.cons_append] at hfuel
    have hfirst := hv.readField key (show cs.length < fuel by omega) (hfields.ends rest)
    have hothers := hfields.read fuel rest (by omega)
    simp only [List.cons_append, List.append_assoc, List.nil_append, readValue,
      skipBlanks_cons (show isBlank '\x7b' = false by decide),
      skipBlanks_cons (show isBlank '"' = false by decide)] at hfirst ⊢
    simp [hfirst, hothers]

theorem fieldsText_nil : FieldsText [] [] where
  written out := by simp
  ends rest := by simp [Ends]
  read fuel rest hfuel := by
    rcases fuel with _ | fuel
    · simp at hfuel
    · simp [skipBlanks, isBlank]

/-- The text of further fields. -/
theorem FieldsText.cons (hv : TextOf v cs) (key : String) (hfields : FieldsText fields ds) :
    FieldsText ((key, v) :: fields) (',' :: '"' :: inQuotes key ++ '"' :: ':' :: cs ++ ds) where
  written out := by
    simp [breakAt, colon, toList_quote, hfields.written, hv.written]
  ends rest := by simp [Ends]
  read fuel rest hfuel := by
    rcases fuel with _ | fuel
    · simp at hfuel
    simp only [List.length_append, List.length_cons, List.cons_append] at hfuel
    have hfirst := hv.readField key (show cs.length < fuel by omega) (hfields.ends rest)
    have hothers := hfields.read fuel rest (by omega)
    simp only [List.cons_append, List.append_assoc] at hfirst
    simp [skipBlanks_cons (show isBlank ',' = false by decide), hfirst, hothers]

/-! ## Documents -/

mutual

/-- Every document has a text. -/
theorem exists_textOf : ∀ v : Json, ∃ cs, TextOf v cs
  | .null => ⟨_, textOf_null⟩
  | .bool b => ⟨_, textOf_bool b⟩
  | .number (.ofNat n) => ⟨_, textOf_ofNat n⟩
  | .number (.negSucc n) => ⟨_, textOf_negSucc n⟩
  | .string s => ⟨_, textOf_string s⟩
  | .array [] => ⟨_, textOf_noItems⟩
  | .array (v :: items) => by
    obtain ⟨cs, hv⟩ := exists_textOf v
    obtain ⟨ds, hitems⟩ := exists_itemsText items
    exact ⟨_, hv.array hitems⟩
  | .object [] => ⟨_, textOf_noFields⟩
  | .object ((key, v) :: fields) => by
    obtain ⟨cs, hv⟩ := exists_textOf v
    obtain ⟨ds, hfields⟩ := exists_fieldsText fields
    exact ⟨_, hv.object key hfields⟩

theorem exists_itemsText : ∀ items : List Json, ∃ cs, ItemsText items cs
  | [] => ⟨_, itemsText_nil⟩
  | v :: items => by
    obtain ⟨cs, hv⟩ := exists_textOf v
    obtain ⟨ds, hitems⟩ := exists_itemsText items
    exact ⟨_, hitems.cons hv⟩

theorem exists_fieldsText : ∀ fields : List (String × Json), ∃ cs, FieldsText fields cs
  | [] => ⟨_, fieldsText_nil⟩
  | (key, v) :: fields => by
    obtain ⟨cs, hv⟩ := exists_textOf v
    obtain ⟨ds, hfields⟩ := exists_fieldsText fields
    exact ⟨_, hfields.cons hv key⟩

end

/-- **A document on one line reads back as itself.** -/
theorem parse?_compact (v : Json) : parse? v.compact = some v := by
  obtain ⟨cs, hv⟩ := exists_textOf v
  have hcs : v.compact.toList = cs := hv.written ""
  have hread := hv.read (cs.length + 1) [] (Nat.le_succ _) (by simp [Ends])
  rw [List.append_nil] at hread
  rw [parse?, hcs, hread]
  rfl

end Json

end ClassWeave
