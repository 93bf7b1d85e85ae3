import ClassWeave.Proofs.Enhancer.Stamping
import ClassWeave.Proofs.Text.Blanks
import ClassWeave.Proofs.Text.Utf8
/-!
# Marker -- the digest in a marker

The digest of the octets before enhancement survives the text of a marker,
whatever the identities of the passes are written with: they may break
lines and pretend to be other entries, but the digest's line comes last and
overrides what they say (`sourceSha256_decode`). So the marker of a stamped
class says which octets it was made from, if the class had no marker before
(`ClassFile.marker?_stamp`).
-/


namespace ClassWeave

/-! ## Digits -/

theorem Bytes.isBlank_hexDigit : ∀ n < 16, Text.isBlank (hexDigit n) = false := by decide

/-- No blank is in octets written as digits. -/
theorem Bytes.isBlank_toHex {bytes : Bytes} {c : Char} (hc : c ∈ (toHex bytes).toList) :
    Text.isBlank c = false := by
  rw [toHex, String.toList_ofList, List.mem_flatMap] at hc
  obtain ⟨b, -, hc⟩ := hc
  have hb := b.toNat_lt
  rcases List.mem_pair.1 hc with rfl | rfl
  · exact isBlank_hexDigit _ (by omega)
  · exact isBlank_hexDigit _ (by omega)

namespace MarkerRecord

variable {hash : String}

/-- The line of a digest overrides the digest of a record. -/
theorem readLine_digest (r : MarkerRecord) (value : List Char) :
    r.readLine ("source-sha256".toList ++ '=' :: value) =
      { r with sourceSha256 := some (String.ofList (Text.trim value)) } := by
  have hkey : String.ofList (Text.trim "source-sha256".toList) = "source-sha256" := by decide
  rw [readLine, Text.cutFirst?_append (by decide)]
  simp only [hkey]
  rfl

/-- What is read of a record is read from the lines of its text. -/
theorem decode_encode_eq (r : MarkerRecord) :
    decode (encode r) = (Text.pieces '\n' r.text.toList).foldl readLine ⟨[], none⟩ := by
  rw [decode, encode, ← String.toList_ofList (l := Utf8.decodeChars _), ← Utf8.decode,
    Utf8.decode_encode]

/-- The text of a record with a digest: the line of the identities, and that
of the digest. -/
theorem toList_text (ids : List EnhancerId) (hash : String) :
    (text ⟨ids, some hash⟩).toList =
      ("enhancers".toList ++ '=' :: (EnhancerId.displayAll ids).toList) ++
        '\n' :: (("source-sha256".toList ++ '=' :: hash.toList) ++ '\n' :: []) := by
  have hids : "enhancers=".toList = "enhancers".toList ++ ['='] := rfl
  have hhash : "source-sha256=".toList = "source-sha256".toList ++ ['='] := rfl
  simp only [text, String.toList_append, hids, hhash]
  simp

theorem not_mem_digest (h : '\n' ∉ hash.toList) :
    '\n' ∉ "source-sha256".toList ++ '=' :: hash.toList := by
  rw [List.mem_append, List.mem_cons, not_or, not_or]
  exact ⟨by decide, by decide, h⟩

/-- **The digest of a record survives its text**, whatever the identities in
front of it look like, but for the blanks around it. -/
theorem sourceSha256_decode_trim (ids : List EnhancerId) (h : '\n' ∉ hash.toList) :
    (decode (encode ⟨ids, some hash⟩)).sourceSha256 = some (Text.trimString hash) := by
  -- the lines of the identities say what they like, the last two say the digest and nothing
  rw [decode_encode_eq, toList_text, Text.pieces_append_sep, Text.pieces_append_sep,
    Text.pieces_of_not_mem (not_mem_digest h), Text.pieces_of_not_mem List.not_mem_nil,
    List.foldl_append, List.singleton_append, List.foldl_cons, List.foldl_cons, List.foldl_nil,
    readLine_digest]
  rfl

/-- A digest without blanks survives as it is. -/
theorem sourceSha256_decode (ids : List EnhancerId) (h : ∀ c ∈ hash.toList, Text.isBlank c = false) :
    (decode (encode ⟨ids, some hash⟩)).sourceSha256 = some hash := by
  have hline : '\n' ∉ hash.toList := fun hmem => absurd (h _ hmem) (by decide)
  rw [sourceSha256_decode_trim ids hline, Text.trimString, Text.trim_of_not_blank h,
    String.ofList_toList]

end MarkerRecord

namespace ClassFile

variable {b out : Bytes} {l : Layout} {r : MarkerRecord}

/-- **The marker of a stamped class is the stamp's**, if it had none before
and its pool has room for one. -/
theorem marker?_stamp (hread : Layout.read b = .ok l) (hout : stamp b r = .ok out)
    (hroom : l.IsComplete) (hunmarked : l.view.isMarked = false) :
    ∃ c, parse out = .ok c ∧ c.marker? = some (.decode r.encode) := by
  obtain ⟨l', -, hread', hview⟩ := read_withAttribute hread hout (.inl hroom)
  refine ⟨_, parse_ok.2 ⟨l', hread', rfl⟩, ?_⟩
  rw [hview, marker?, find?_concat, find?_unmarked hunmarked, Option.none_or, if_pos rfl,
    Option.map_some]

end ClassFile

end ClassWeave
