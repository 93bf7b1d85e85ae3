import ClassWeave.Proofs.Marker.Codec
/-!
# Marker -- the records that survive their text

A record is read back from its text exactly if it is legible
(`MarkerRecord.decode_encode_iff`), and what is read of any octets is a
legible record, so it is read back from then on. A digest survives on its own,
whatever the identities in front of it look like, for its line comes last. A
record without a digest has no such line: there an identity that breaks its
line and goes on with the key of a digest (`MarkerRecord.Forges`) is read as
one. Nothing else is, for neither the key in front nor the commas between the
identities can be part of such a line's key (`forges_flatMap`). Together these
say what survives, of every record and of all octets
(`MarkerRecord.codec_exact`).
-/


namespace ClassWeave

namespace Text

variable {cs : List Char} {c : Char}

/-- What is no blank is still there when a text is trimmed. -/
theorem mem_trim_of_mem (hc : c ∈ cs) (hblank : isBlank c = false) : c ∈ trim cs := by
  have hpos : ∀ {ds : List Char}, c ∈ ds → c ∈ ds.dropWhile isBlank := by
    intro ds hmem
    rw [← List.takeWhile_append_dropWhile (p := isBlank) (l := ds)] at hmem
    rcases List.mem_append.1 hmem with hfront | hrest
    · cases (List.mem_takeWhile_imp hfront).symm.trans hblank
    · exact hrest
  rw [trim, trimEnd]
  exact List.mem_reverse.2 (hpos (List.mem_reverse.2 (hpos hc)))

theorem trim_concat (cs : List Char) (hblank : isBlank c = true) : trim (cs ++ [c]) = trim cs := by
  rw [trim, trim, trimEnd_eq, trimEnd_eq, List.dropWhile_append]
  split
  · next hempty =>
    rw [List.isEmpty_iff.1 hempty, List.dropWhile_cons_of_pos hblank]
    rfl
  · exact List.rdropWhile_concat_pos isBlank _ c hblank

end Text

namespace EnhancerId

theorem parse_concat (cs : List Char) {c : Char} (hblank : Text.isBlank c = true) :
    parse (String.ofList (cs ++ [c])) = parse (String.ofList cs) := by
  simp only [parse, String.toList_ofList, Text.trim_concat cs hblank]

end EnhancerId

namespace MarkerRecord

variable {r : MarkerRecord} {hash : String} {line key value xs ys : List Char} {c : Char}

/-! ## Line endings -/

/-- A blank behind a list of identities plays no part. -/
theorem idsOf_concat (value : List Char) (hblank : Text.isBlank c = true) :
    idsOf (value ++ [c]) = idsOf value := by
  have hcomma : c ≠ ',' := by
    rintro rfl
    cases hblank
  have hlast : ∀ ys : List Char,
      ([ys ++ [c]].filter fun p => !Text.isAllBlank p).map
          (fun p => EnhancerId.parse (String.ofList p)) =
        ([ys].filter fun p => !Text.isAllBlank p).map
          fun p => EnhancerId.parse (String.ofList p) := by
    intro ys
    have hall : Text.isAllBlank (ys ++ [c]) = Text.isAllBlank ys := by
      simp [Text.isAllBlank, hblank]
    rcases hys : Text.isAllBlank ys <;>
      simp only [List.filter_cons, List.filter_nil, hall, hys, Bool.not_true, Bool.not_false,
        if_true, Bool.false_eq_true, if_false, List.map_cons, List.map_nil,
        EnhancerId.parse_concat ys hblank]
  rcases Text.cutLast?_cases ',' value with ⟨hnot, -⟩ | ⟨xs, ys, rfl, hnot, -⟩
  · have hnot' : ',' ∉ value ++ [c] := by simp [hnot, hcomma.symm]
    rw [idsOf, idsOf, Text.pieces_of_not_mem hnot, Text.pieces_of_not_mem hnot', hlast]
  · have hnot' : ',' ∉ ys ++ [c] := by simp [hnot, hcomma.symm]
    rw [idsOf, idsOf, List.append_assoc, List.cons_append, Text.pieces_append_sep,
      Text.pieces_append_sep, Text.pieces_of_not_mem hnot, Text.pieces_of_not_mem hnot',
      List.filter_append, List.filter_append, List.map_append, List.map_append, hlast]

/-- **A carriage return in front of a line break plays no part**: lines that
end with both are read as those that end with one. -/
theorem readLine_return (r : MarkerRecord) (line : List Char) :
    r.readLine (line ++ ['\r']) = r.readLine line := by
  have hblank : Text.isBlank '\r' = true := by decide
  rcases Text.cutFirst?_cases '=' line with ⟨hnot, hcut⟩ | ⟨key, value, rfl, hnot, hcut⟩
  · have hnot' : '=' ∉ line ++ ['\r'] := by simp [hnot]
    rw [readLine, readLine, hcut, Text.cutFirst?_of_not_mem hnot']
  · rw [List.append_assoc, List.cons_append, readLine, readLine, Text.cutFirst?_append hnot,
      Text.cutFirst?_append hnot]
    simp only [idsOf_concat value hblank, Text.trim_concat value hblank]

/-! ## Legible records -/

/-- **A digest that can be read back**: it breaks no line and has no blank at
either end. -/
def LegibleDigest (hash : String) : Prop :=
  '\n' ∉ hash.toList ∧ Text.trim hash.toList = hash.toList

/-- **A record that can be read back**: its identities and its digest are
legible. -/
structure Legible (r : MarkerRecord) : Prop where
  enhancers : ∀ id ∈ r.enhancers, id.Legible
  digest : ∀ hash ∈ r.sourceSha256, LegibleDigest hash

instance decidableLegibleDigest (hash : String) : Decidable (LegibleDigest hash) :=
  inferInstanceAs (Decidable ('\n' ∉ hash.toList ∧ Text.trim hash.toList = hash.toList))

/-- What stands in front of the value of a digest. -/
def IsDigestKey (key : List Char) : Prop := Text.trim key = "source-sha256".toList

/-- A line that says a digest. -/
def SaysDigest (line : List Char) : Prop :=
  ∃ key value, line = key ++ '=' :: value ∧ IsDigestKey key

theorem IsDigestKey.not_mem (h : IsDigestKey key) (hblank : Text.isBlank c = false)
    (hc : c ∉ "source-sha256".toList) : c ∉ key :=
  fun hmem => hc (h ▸ Text.mem_trim_of_mem hmem hblank)

/-- **What a line does to the digest** of a record: it leaves it, or says a
digest itself. -/
theorem sourceSha256_readLine (r : MarkerRecord) (line : List Char) :
    ¬ SaysDigest line ∧ (r.readLine line).sourceSha256 = r.sourceSha256 ∨
      ∃ key value, line = key ++ '=' :: value ∧ IsDigestKey key ∧
        (r.readLine line).sourceSha256 = some (String.ofList (Text.trim value)) := by
  rcases Text.cutFirst?_cases '=' line with ⟨hnot, hcut⟩ | ⟨key, value, rfl, hnot, hcut⟩
  · refine .inl ⟨?_, by rw [readLine, hcut]⟩
    rintro ⟨key, value, rfl, -⟩
    exact hnot (List.mem_append_right _ List.mem_cons_self)
  · by_cases hkey : IsDigestKey key
    · have hname : String.ofList (Text.trim key) = "source-sha256" := by
        rw [hkey, String.ofList_toList]
      refine .inr ⟨key, value, rfl, hkey, ?_⟩
      simp only [readLine, hcut, hname]
      rfl
    · refine .inl ⟨?_, ?_⟩
      · -- the first cut of a line that says a digest is behind its key
        rintro ⟨key', value', heq, hkey'⟩
        have hfree : '=' ∉ key' := hkey'.not_mem (by decide) (by decide)
        rw [heq, Text.cutFirst?_append hfree, Option.some.injEq, Prod.mk.injEq] at hcut
        exact hkey (hcut.1 ▸ hkey')
      · have hname : String.ofList (Text.trim key) ≠ "source-sha256" := by
          intro heq
          exact hkey (by rw [IsDigestKey, ← heq, String.toList_ofList])
        simp only [readLine, hcut, if_neg hname]
        split <;> rfl

/-- A line leaves a record with a legible digest. -/
theorem legibleDigest_readLine (hline : '\n' ∉ line)
    (h : ∀ hash ∈ r.sourceSha256, LegibleDigest hash) :
    ∀ hash ∈ (r.readLine line).sourceSha256, LegibleDigest hash := by
  rcases r.sourceSha256_readLine line with ⟨-, hsame⟩ | ⟨key, value, rfl, -, hsaid⟩
  · rwa [hsame]
  · rw [hsaid]
    intro hash hhash
    obtain rfl := Option.some.inj hhash
    rw [LegibleDigest, String.toList_ofList]
    refine ⟨fun hmem => hline ?_, Text.trim_trim value⟩
    exact List.mem_append_right _ (List.mem_cons_of_mem _ ((Text.trim_infix value).subset hmem))

/-- So do lines one after another. -/
theorem legibleDigest_foldl {lines : List (List Char)} (hlines : ∀ line ∈ lines, '\n' ∉ line)
    (h : ∀ hash ∈ r.sourceSha256, LegibleDigest hash) :
    ∀ hash ∈ (lines.foldl readLine r).sourceSha256, LegibleDigest hash := by
  induction lines generalizing r with
  | nil => exact h
  | cons line lines ih =>
    obtain ⟨hline, hrest⟩ := List.forall_mem_cons.1 hlines
    exact ih hrest (legibleDigest_readLine hline h)

/-- **Whatever octets a marker has, the record read from them is legible.** -/
theorem legible_decode (payload : Bytes) : (decode payload).Legible where
  enhancers := legible_of_mem_decode payload
  digest := legibleDigest_foldl (fun _ => Text.not_mem_of_mem_pieces) nofun

/-- **A record is read back exactly if it is legible.** -/
theorem decode_encode_iff : decode (encode r) = r ↔ r.Legible := by
  constructor
  · intro h
    rw [← h]
    exact legible_decode _
  · intro h
    rw [decode_encode h.enhancers fun hash hhash => (h.digest hash hhash).1]
    obtain ⟨ids, _ | hash⟩ := r
    · rfl
    · have htrim : Text.trimString hash = hash := by
        rw [Text.trimString, (h.digest hash rfl).2, String.ofList_toList]
      rw [Option.map_some, htrim]

/-! ## Identities that are read as a digest -/

/-- **A text that goes on with a digest's line** behind a line break. -/
def Forges (cs : List Char) : Prop :=
  ∃ before key value, cs = before ++ '\n' :: (key ++ '=' :: value) ∧ '\n' ∉ key ∧
    IsDigestKey key

/-- Text that holds a text that forges a digest does so too. -/
theorem Forges.append (h : Forges ys) (xs zs : List Char) : Forges (xs ++ ys ++ zs) := by
  obtain ⟨before, key, value, rfl, hline, hkey⟩ := h
  exact ⟨xs ++ before, key, value ++ zs, by simp, hline, hkey⟩

/-- What breaks no line in front plays no part. -/
theorem forges_cons (hc : c ≠ '\n') : Forges (c :: ys) ↔ Forges ys := by
  constructor
  · rintro ⟨before, key, value, heq, hline, hkey⟩
    rcases before with _ | ⟨d, before⟩
    · exact absurd (List.cons.inj heq).1 hc
    · exact ⟨before, key, value, (List.cons.inj heq).2, hline, hkey⟩
  · intro h
    have := h.append [c] []
    rwa [List.append_nil] at this

/-- **A mark that can be in no key parts what forges a digest**: the digest's
line stands in front of it, or begins at it or behind. -/
theorem forges_append (hc : c ≠ '=') (hfree : ∀ key, '\n' ∉ key → IsDigestKey key → c ∉ key) :
    Forges (xs ++ c :: ys) ↔ Forges xs ∨ Forges (c :: ys) := by
  constructor
  · rintro ⟨before, key, value, heq, hline, hkey⟩
    rcases List.append_eq_append_iff.1 heq with ⟨ds, rfl, hright⟩ | ⟨ds, rfl, hright⟩
    · exact .inr ⟨ds, key, value, hright, hline, hkey⟩
    rcases ds with _ | ⟨d, ds⟩
    · exact .inr ⟨[], key, value, hright.symm, hline, hkey⟩
    obtain ⟨rfl, hrest⟩ := List.cons.inj hright
    -- the mark is behind the line break, and not in the key
    rcases List.append_eq_append_iff.1 hrest with ⟨es, rfl, hvalue⟩ | ⟨es, rfl, hvalue⟩
    · rcases es with _ | ⟨e, es⟩
      · exact absurd (List.cons.inj hvalue).1.symm hc
      · obtain ⟨rfl, -⟩ := List.cons.inj hvalue
        exact .inl ⟨before, key, es, rfl, hline, hkey⟩
    · rcases es with _ | ⟨e, es⟩
      · exact absurd (List.cons.inj hvalue).1 hc
      · obtain ⟨rfl, -⟩ := List.cons.inj hvalue
        exact absurd (List.mem_append_right _ List.mem_cons_self) (hfree _ hline hkey)
  · rintro (h | h)
    · exact h.append [] (c :: ys)
    · have := h.append xs []
      rwa [List.append_nil] at this

/-- **Texts that marks are put in front of** forge a digest if one of them
does, or what stands in front of them all. -/
theorem forges_flatMap (hc : c ≠ '=') (hfree : ∀ key, '\n' ∉ key → IsDigestKey key → c ∉ key)
    (xs : List Char) (parts : List (List Char)) :
    Forges (xs ++ parts.flatMap (c :: ·)) ↔ Forges xs ∨ ∃ p ∈ parts, Forges (c :: p) := by
  induction parts generalizing xs with
  | nil => simp
  | cons p parts ih =>
    rw [List.flatMap_cons, ← List.append_assoc, ih, forges_append hc hfree, or_assoc,
      List.exists_mem_cons_iff]

/-- One line forges a digest behind a line break if it says one. -/
theorem forges_line (hline : '\n' ∉ line) : Forges ('\n' :: line) ↔ SaysDigest line := by
  constructor
  · rintro ⟨_ | ⟨d, before⟩, key, value, heq, -, hkey⟩
    · exact ⟨key, value, (List.cons.inj heq).2, hkey⟩
    · refine absurd ?_ hline
      rw [(List.cons.inj heq).2]
      exact List.mem_append_right _ List.mem_cons_self
  · rintro ⟨key, value, rfl, hkey⟩
    exact ⟨[], key, value, rfl, fun hmem => hline (List.mem_append_left _ hmem), hkey⟩

/-- **A text has a line that says a digest** exactly if it forges one behind
a line break. -/
theorem exists_saysDigest_iff (cs : List Char) :
    (∃ line ∈ Text.pieces '\n' cs, SaysDigest line) ↔ Forges ('\n' :: cs) := by
  have hlines : ∀ line ∈ Text.pieces '\n' cs, '\n' ∉ line := fun _ => Text.not_mem_of_mem_pieces
  have hjoin : '\n' :: cs = [] ++ (Text.pieces '\n' cs).flatMap ('\n' :: ·) := by
    conv_lhs => rw [← Text.join_pieces '\n' cs]
    rcases hp : Text.pieces '\n' cs with _ | ⟨p, ps⟩
    · exact absurd hp (Text.pieces_ne_nil '\n' cs)
    · rfl
  have hnil : ¬ Forges [] := by
    rintro ⟨before, key, value, heq, -⟩
    exact List.append_ne_nil_of_right_ne_nil before (List.cons_ne_nil _ _) heq.symm
  rw [hjoin, forges_flatMap (by decide) fun _ hfree _ => hfree, or_iff_right hnil]
  exact exists_congr fun line => and_congr_right fun hmem => (forges_line (hlines line hmem)).symm

/-- Lines leave a record without a digest exactly if it had none and none of
them says one. -/
theorem sourceSha256_foldl_eq_none {lines : List (List Char)} :
    (lines.foldl readLine r).sourceSha256 = none ↔
      r.sourceSha256 = none ∧ ∀ line ∈ lines, ¬ SaysDigest line := by
  induction lines generalizing r with
  | nil => simp
  | cons line lines ih =>
    rw [List.foldl_cons, ih, List.forall_mem_cons]
    rcases r.sourceSha256_readLine line with ⟨hnot, hsame⟩ | ⟨key, value, heq, hkey, hsaid⟩
    · rw [hsame]
      exact and_congr_right fun _ => (and_iff_right hnot).symm
    · rw [hsaid]
      exact iff_of_false nofun fun h => h.2.1 ⟨key, value, heq, hkey⟩

/-- What is between an entry's key and the end of its text plays no part, if
the key is not that of a digest. -/
theorem forges_entry (hline : '\n' ∉ key) (hcut : '=' ∉ key) (hkey : ¬ IsDigestKey key) :
    Forges ('\n' :: (key ++ '=' :: value)) ↔ Forges value := by
  constructor
  · rintro ⟨_ | ⟨d, before⟩, key', value', heq, hline', hkey'⟩
    · -- the only line break is the one in front
      have hfirst := Text.cutFirst?_append hcut value
      have hfree : '=' ∉ key' := hkey'.not_mem (by decide) (by decide)
      rw [(List.cons.inj heq).2, Text.cutFirst?_append hfree, Option.some.injEq,
        Prod.mk.injEq] at hfirst
      exact absurd (hfirst.1 ▸ hkey') hkey
    · rcases List.append_eq_append_iff.1 (List.cons.inj heq).2 with
        ⟨ds, rfl, hvalue⟩ | ⟨ds, rfl, hvalue⟩
      · rcases ds with _ | ⟨d, ds⟩
        · cases hvalue
        · exact ⟨ds, key', value', (List.cons.inj hvalue).2, hline', hkey'⟩
      · rcases ds with _ | ⟨d, ds⟩
        · cases hvalue
        · obtain ⟨rfl, -⟩ := List.cons.inj hvalue
          exact absurd (List.mem_append_right _ List.mem_cons_self) hline
  · intro h
    have := h.append ('\n' :: key ++ ['=']) []
    simpa using this

/-- **A record without a digest is read back without one** exactly if none of
its identities forges one. -/
theorem sourceSha256_decode_none (ids : List EnhancerId) :
    (decode (encode ⟨ids, none⟩)).sourceSha256 = none ↔
      ∀ id ∈ ids, ¬ Forges id.display.toList := by
  have htext : (text ⟨ids, none⟩).toList =
      ("enhancers".toList ++ '=' :: (EnhancerId.displayAll ids).toList) ++ '\n' :: [] := by
    have hkey : "enhancers=".toList = "enhancers".toList ++ ['='] := rfl
    simp only [text, String.toList_append, hkey]
    simp
  have hend : ¬ Forges ['\n'] := by
    rw [forges_line List.not_mem_nil]
    rintro ⟨key, value, heq, -⟩
    exact List.append_ne_nil_of_right_ne_nil key (List.cons_ne_nil _ _) heq.symm
  have hcomma : ∀ key, '\n' ∉ key → IsDigestKey key → ',' ∉ key := fun _ _ hkey =>
    hkey.not_mem (by decide) (by decide)
  have hids : Forges (EnhancerId.displayAll ids).toList ↔ ∃ id ∈ ids, Forges id.display.toList := by
    rw [EnhancerId.toList_displayAll]
    rcases ids with _ | ⟨id, ids⟩
    · refine iff_of_false ?_ (by simp)
      rintro ⟨before, key, value, heq, -⟩
      exact List.append_ne_nil_of_right_ne_nil before (List.cons_ne_nil _ _) heq.symm
    · rw [List.map_cons, Text.join, forges_flatMap (by decide) hcomma, List.exists_mem_cons_iff]
      simp only [List.mem_map, exists_exists_and_eq_and, forges_cons (by decide : ',' ≠ '\n')]
  rw [decode_encode_eq, sourceSha256_foldl_eq_none, and_iff_right rfl, htext, ← not_iff_not]
  have hall : (¬ ∀ id ∈ ids, ¬ Forges id.display.toList) ↔
      ∃ id ∈ ids, Forges id.display.toList := by simp
  rw [hall, ← hids]
  calc _ ↔ ∃ line ∈ Text.pieces '\n' (("enhancers".toList ++
        '=' :: (EnhancerId.displayAll ids).toList) ++ '\n' :: []), SaysDigest line := by simp
    _ ↔ Forges ('\n' :: ("enhancers".toList ++ '=' :: (EnhancerId.displayAll ids).toList)) := by
        rw [exists_saysDigest_iff, ← List.cons_append,
          forges_append (by decide) fun _ hfree _ => hfree, or_iff_left hend]
    _ ↔ Forges (EnhancerId.displayAll ids).toList :=
        forges_entry (by decide) (by decide) (by rw [IsDigestKey]; decide)

/-! ## What survives -/

/-- **What survives the text of a marker.** A record is read back exactly if
it is legible. What is read of any octets is read back. And the digest alone
is read back exactly if it is legible, whatever the identities are; a record
without one is read back without one exactly if none of its identities goes on
behind a line break with the key of a digest. -/
theorem codec_exact (r : MarkerRecord) (payload : Bytes) :
    (decode (encode r) = r ↔ r.Legible) ∧
      decode (encode (decode payload)) = decode payload ∧
      ((decode (encode r)).sourceSha256 = r.sourceSha256 ↔
        match r.sourceSha256 with
        | some hash => LegibleDigest hash
        | none => ∀ id ∈ r.enhancers, ¬ Forges id.display.toList) := by
  refine ⟨decode_encode_iff, decode_encode_iff.2 (legible_decode payload), ?_⟩
  obtain ⟨ids, _ | hash⟩ := r
  · exact sourceSha256_decode_none ids
  constructor
  · intro h
    exact (legible_decode (encode ⟨ids, some hash⟩)).digest hash h
  · intro h
    rw [sourceSha256_decode_trim ids h.1, Text.trimString, h.2, String.ofList_toList]

/-- A record with a name that has a comma does not come back, but its digest
does. -/
theorem codec_exact_comma :
    decode (encode ⟨[⟨"a,b", "1"⟩], some "ff"⟩) ≠ ⟨[⟨"a,b", "1"⟩], some "ff"⟩ ∧
      (decode (encode ⟨[⟨"a,b", "1"⟩], some "ff"⟩)).sourceSha256 = some "ff" := by
  obtain ⟨hiff, -, hdigest⟩ := codec_exact ⟨[⟨"a,b", "1"⟩], some "ff"⟩ []
  refine ⟨fun h => ?_, hdigest.2 (by decide)⟩
  exact ((hiff.1 h).enhancers _ List.mem_cons_self).comma (by decide)

/-- A record without a digest, of a pass whose name breaks the line. -/
def forging : MarkerRecord := ⟨[⟨"a\nsource-sha256=b", "1"⟩], none⟩

/-- Without a digest in the record, a name that breaks its line can bring one
in. -/
theorem sourceSha256_forged :
    (∀ hash ∈ forging.sourceSha256, LegibleDigest hash) ∧ forging.sourceSha256 = none ∧
      (decode (encode forging)).sourceSha256 = some "b@1" :=
  ⟨nofun, rfl, by decide +kernel⟩

end MarkerRecord

end ClassWeave
