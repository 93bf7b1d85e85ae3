import ClassWeave.Proofs.Marker
/-!
# Marker -- the identities that a marker can say

The text of a marker puts commas between identities, ends their line behind
the last one, leaves off the blanks around each, and parts a name from its
version at the last `@`. An identity whose writing keeps clear of all that is
legible (`EnhancerId.Legible`). Whatever octets a marker has, the identities
that are read from them are legible (`legible_of_mem_decode`), and a record
with legible identities is read back with them (`decode_encode`). So a record
keeps its identities exactly if they all are (`enhancers_decode_iff`).
-/


namespace ClassWeave

namespace EnhancerId

variable {id : EnhancerId} {cs : List Char}

/-- **An identity that can be read back** from a list of identities: its
writing holds neither a comma nor a line feed, it has no blank at either end,
and the last `@` of it is the one between the name and the version. -/
structure Legible (id : EnhancerId) : Prop where
  comma : ',' ∉ id.display.toList
  line : '\n' ∉ id.display.toList
  trimmed : Text.trim id.display.toList = id.display.toList
  version : '@' ∉ id.version.toList

instance decidableLegible (id : EnhancerId) : Decidable id.Legible :=
  decidable_of_iff (',' ∉ id.display.toList ∧ '\n' ∉ id.display.toList ∧
      Text.trim id.display.toList = id.display.toList ∧ '@' ∉ id.version.toList)
    ⟨fun h => ⟨h.1, h.2.1, h.2.2.1, h.2.2.2⟩, fun h => ⟨h.comma, h.line, h.trimmed, h.version⟩⟩

theorem toList_display (id : EnhancerId) :
    id.display.toList = id.name.toList ++ '@' :: id.version.toList := by
  rw [display, String.toList_append, String.toList_append, List.append_assoc]
  rfl

/-- A writing is never all blank. -/
theorem isAllBlank_display (id : EnhancerId) : Text.isAllBlank id.display.toList = false := by
  rw [toList_display, Text.isAllBlank, List.all_eq_false]
  exact ⟨'@', by simp, by decide⟩

theorem Legible.parse_display (h : id.Legible) : parse id.display = id := by
  rw [parse, h.trimmed, toList_display]
  simp only [Text.cutLast?_append _ h.version, String.ofList_toList]

/-- **What a writing means is legible**, if there is no separator in it and it
is not all blank. -/
theorem legible_parse (hcomma : ',' ∉ cs) (hline : '\n' ∉ cs) (hblank : Text.isAllBlank cs = false) :
    (parse (String.ofList cs)).Legible := by
  have hsub : ∀ {c}, c ∉ cs → c ∉ Text.trim cs := fun hc => mt ((Text.trim_infix cs).subset ·) hc
  rw [parse, String.toList_ofList]
  rcases Text.cutLast?_cases '@' (Text.trim cs) with ⟨hnot, hcut⟩ | ⟨name, version, hcs, hnot, hcut⟩
  · -- without an `@` the writing gets one more character, which is no blank
    simp only [hcut]
    have hdisplay : (display ⟨String.ofList (Text.trim cs), ""⟩).toList = Text.trim cs ++ ['@'] := by
      rw [toList_display, String.toList_ofList]
      rfl
    constructor
    · rw [hdisplay]
      simpa using hsub hcomma
    · rw [hdisplay]
      simpa using hsub hline
    · rw [hdisplay, Text.trim_eq_self_iff, List.head?_append_of_ne_nil _ (Text.trim_ne_nil hblank),
        List.getLast?_concat]
      refine ⟨(Text.trim_eq_self_iff.1 (Text.trim_trim cs)).1, fun c hc => ?_⟩
      obtain rfl := Option.some.inj hc
      decide
    · exact List.not_mem_nil
  · simp only [hcut]
    have hdisplay : (display ⟨String.ofList name, String.ofList version⟩).toList = Text.trim cs := by
      rw [toList_display, String.toList_ofList, String.toList_ofList, hcs]
    constructor
    · rw [hdisplay]
      exact hsub hcomma
    · rw [hdisplay]
      exact hsub hline
    · rw [hdisplay]
      exact Text.trim_trim cs
    · rwa [String.toList_ofList]

theorem toList_displayAll (ids : List EnhancerId) :
    (displayAll ids).toList = Text.join ',' (ids.map fun id => id.display.toList) := by
  rw [displayAll, String.toList_intercalate, Text.join_eq_intercalate, List.map_map]
  rfl

end EnhancerId

namespace MarkerRecord

variable {r : MarkerRecord} {ids : List EnhancerId}

/-! ## What is read is legible -/

/-- The identities of a list are legible if it breaks no line. -/
theorem legible_of_mem_idsOf {value : List Char} (hline : '\n' ∉ value) :
    ∀ id ∈ idsOf value, id.Legible := by
  intro id hid
  obtain ⟨p, hp, rfl⟩ := List.mem_map.1 hid
  obtain ⟨hpiece, hblank⟩ := List.mem_filter.1 hp
  have hsub : '\n' ∉ p := fun hmem =>
    hline ((Text.mem_iff_exists_piece (by decide)).2 ⟨p, hpiece, hmem⟩)
  exact EnhancerId.legible_parse (Text.not_mem_of_mem_pieces hpiece) hsub (by simpa using hblank)

/-- A line keeps the identities of a record, or puts those of its value in
their place. -/
theorem enhancers_readLine (r : MarkerRecord) (line : List Char) :
    (r.readLine line).enhancers = r.enhancers ∨
      ∃ key value, line = key ++ '=' :: value ∧ (r.readLine line).enhancers = idsOf value := by
  rcases Text.cutFirst?_cases '=' line with ⟨-, hcut⟩ | ⟨key, value, hline, -, hcut⟩
  · exact .inl (by rw [readLine, hcut])
  · simp only [readLine, hcut]
    split
    · exact .inr ⟨key, value, hline, rfl⟩
    · split
      · exact .inl rfl
      · exact .inl rfl

/-- A line leaves a record with legible identities. -/
theorem legible_of_mem_readLine {line : List Char} (hline : '\n' ∉ line)
    (h : ∀ id ∈ r.enhancers, id.Legible) : ∀ id ∈ (r.readLine line).enhancers, id.Legible := by
  rcases r.enhancers_readLine line with hsame | ⟨key, value, hcut, hids⟩
  · rwa [hsame]
  · rw [hids]
    refine legible_of_mem_idsOf fun hmem => hline ?_
    rw [hcut]
    exact List.mem_append_right _ (List.mem_cons_of_mem _ hmem)

/-- So do lines one after another. -/
theorem legible_of_mem_foldl {lines : List (List Char)} (hlines : ∀ line ∈ lines, '\n' ∉ line)
    (h : ∀ id ∈ r.enhancers, id.Legible) :
    ∀ id ∈ (lines.foldl readLine r).enhancers, id.Legible := by
  induction lines generalizing r with
  | nil => exact h
  | cons line lines ih =>
    exact ih (fun l hl => hlines l (List.mem_cons_of_mem _ hl))
      (legible_of_mem_readLine (hlines line List.mem_cons_self) h)

/-- **Whatever octets a marker has, the identities read from them are
legible.** -/
theorem legible_of_mem_decode (payload : Bytes) :
    ∀ id ∈ (decode payload).enhancers, id.Legible :=
  legible_of_mem_foldl (fun _ => Text.not_mem_of_mem_pieces) nofun

/-! ## What is legible is read -/

/-- The line of the identities overrides the identities of a record. -/
theorem readLine_enhancers (r : MarkerRecord) (value : List Char) :
    r.readLine ("enhancers".toList ++ '=' :: value) = { r with enhancers := idsOf value } := by
  have hkey : String.ofList (Text.trim "enhancers".toList) = "enhancers" := by decide
  rw [readLine, Text.cutFirst?_append (by decide)]
  simp only [hkey, if_true]

/-- Legible identities are what their list is read as. -/
theorem idsOf_displayAll (h : ∀ id ∈ ids, id.Legible) :
    idsOf (EnhancerId.displayAll ids).toList = ids := by
  rcases eq_or_ne ids [] with rfl | hne
  · rfl
  have hpieces : Text.pieces ',' (EnhancerId.displayAll ids).toList =
      ids.map fun id => id.display.toList := by
    rw [EnhancerId.toList_displayAll]
    refine Text.pieces_join (by simpa using hne) fun p hp => ?_
    obtain ⟨id, hid, rfl⟩ := List.mem_map.1 hp
    exact (h id hid).comma
  have hkept : (ids.map fun id => id.display.toList).filter (fun p => !Text.isAllBlank p) =
      ids.map fun id => id.display.toList := by
    refine List.filter_eq_self.2 fun p hp => ?_
    obtain ⟨id, -, rfl⟩ := List.mem_map.1 hp
    rw [EnhancerId.isAllBlank_display]
    rfl
  rw [idsOf, hpieces, hkept, List.map_map]
  refine (List.map_congr_left fun id hid => ?_).trans (List.map_id ids)
  rw [Function.comp_apply, String.ofList_toList, (h id hid).parse_display, id_eq]

/-- Legible identities break no line. -/
theorem not_mem_displayAll (h : ∀ id ∈ ids, id.Legible) :
    '\n' ∉ "enhancers".toList ++ '=' :: (EnhancerId.displayAll ids).toList := by
  rw [List.mem_append, List.mem_cons, not_or, not_or]
  refine ⟨by decide, by decide, fun hmem => ?_⟩
  rw [EnhancerId.toList_displayAll] at hmem
  rcases Text.of_mem_join hmem with hcomma | ⟨p, hp, hline⟩
  · cases hcomma
  · obtain ⟨id, hid, rfl⟩ := List.mem_map.1 hp
    exact (h id hid).line hline

/-- **A record with legible identities is read back**, but for the blanks
around its digest. -/
theorem decode_encode (h : ∀ id ∈ r.enhancers, id.Legible)
    (hdigest : ∀ hash ∈ r.sourceSha256, '\n' ∉ hash.toList) :
    decode (encode r) = { r with sourceSha256 := r.sourceSha256.map Text.trimString } := by
  obtain ⟨ids, digest⟩ := r
  have hids := not_mem_displayAll h
  rcases digest with _ | hash
  · have htext : (text ⟨ids, none⟩).toList =
        ("enhancers".toList ++ '=' :: (EnhancerId.displayAll ids).toList) ++ '\n' :: [] := by
      have hkey : "enhancers=".toList = "enhancers".toList ++ ['='] := rfl
      simp only [text, String.toList_append, hkey]
      simp
    rw [decode_encode_eq, htext, Text.pieces_append_sep, Text.pieces_of_not_mem hids,
      Text.pieces_of_not_mem List.not_mem_nil, List.singleton_append, List.foldl_cons,
      List.foldl_cons, List.foldl_nil, readLine_enhancers, idsOf_displayAll h]
    rfl
  · rw [decode_encode_eq, toList_text, Text.pieces_append_sep, Text.pieces_append_sep,
      Text.pieces_of_not_mem hids, Text.pieces_of_not_mem (not_mem_digest (hdigest hash rfl)),
      Text.pieces_of_not_mem List.not_mem_nil, List.singleton_append, List.singleton_append,
      List.foldl_cons, List.foldl_cons, List.foldl_cons, List.foldl_nil, readLine_enhancers,
      readLine_digest, idsOf_displayAll h]
    rfl

/-- **A record keeps its identities exactly if they are all legible**, as long
as its digest breaks no line. -/
theorem enhancers_decode_iff (hdigest : ∀ hash ∈ r.sourceSha256, '\n' ∉ hash.toList) :
    (decode (encode r)).enhancers = r.enhancers ↔ ∀ id ∈ r.enhancers, id.Legible := by
  constructor
  · intro h
    rw [← h]
    exact legible_of_mem_decode _
  · intro h
    rw [decode_encode h hdigest]

end MarkerRecord

end ClassWeave
