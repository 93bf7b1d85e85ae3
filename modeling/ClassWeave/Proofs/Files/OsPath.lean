import ClassWeave.Files.OsPath
import ClassWeave.Proofs.Text.Pieces
import ClassWeave.Proofs.Text.Utf8
import Mathlib.Data.List.Infix
/-!
# Files -- the octets of a path that is text

A slash is an octet of no other character, so the octets of a text fall into
segments where the text does (`OsPath.segments_ofPath`), and the absolute
spelling of the octets is that of the text (`OsPath.absolute?_ofPath`). Read
as text again it is the text itself (`OsPath.lossy_ofPath`): what is lost
where a path is read, is lost for paths alone that are no text.
-/


namespace ClassWeave

namespace Utf8

variable {cs : List Char} {c : Char}

/-- **An octet below `0x80` is in no character but its own.** -/
theorem mem_encodeChar_iff {b : UInt8} (hb : b.toNat < 0x80) :
    b ∈ encodeChar c ↔ c.toNat = b.toNat := by
  have hrange := toNat_range c
  have hhigh {n : Nat} (hlow : 0x80 ≤ n) (hn : n < 256) (h : b = UInt8.ofNat n) : False := by
    rw [h, toNat_octet hn] at hb
    omega
  by_cases h₁ : c.toNat < 0x80
  · rw [encodeChar, if_pos h₁, List.mem_singleton, ← UInt8.toNat_inj, toNat_octet (by omega)]
    exact eq_comm
  -- all the octets of a longer character are above
  refine iff_of_false (fun hmem => ?_) (by omega)
  unfold encodeChar at hmem
  rw [if_neg h₁] at hmem
  by_cases h₂ : c.toNat < 0x800
  · rw [if_pos h₂, List.mem_cons, List.mem_singleton] at hmem
    rcases hmem with h | h <;> exact hhigh (by omega) (by omega) h
  rw [if_neg h₂] at hmem
  by_cases h₃ : c.toNat < 0x10000
  · rw [if_pos h₃, List.mem_cons, List.mem_cons, List.mem_singleton] at hmem
    rcases hmem with h | h | h <;> exact hhigh (by omega) (by omega) h
  · rw [if_neg h₃, List.mem_cons, List.mem_cons, List.mem_cons, List.mem_singleton] at hmem
    rcases hmem with h | h | h | h <;> exact hhigh (by omega) (by omega) h

/-- Characters are told from their octets. -/
theorem flatMap_encodeChar_inj {ds : List Char}
    (h : cs.flatMap encodeChar = ds.flatMap encodeChar) : cs = ds := by
  have hread := readOnto_flatMap_encodeChar cs []
  rw [h, readOnto_flatMap_encodeChar] at hread
  simpa using hread.symm

theorem encodeChar_ne_nil (c : Char) : encodeChar c ≠ [] := by
  intro hnil
  have hflat : [c].flatMap encodeChar = [].flatMap encodeChar := by simp [hnil]
  cases flatMap_encodeChar_inj hflat

end Utf8

namespace OsPath

open Utf8 (encode encodeChar)

variable {p q home : Path} {cs : List Char} {c : Char}

@[simp] theorem lossy_ofPath (p : Path) : (ofPath p).lossy = p.text := Utf8.decode_encode p.text

/-- **Paths that are text are told from their octets.** -/
theorem ofPath_injective : Function.Injective ofPath := fun p q h => by
  have htext : p.text = q.text := by rw [← lossy_ofPath p, h, lossy_ofPath]
  cases p
  cases q
  exact congrArg Path.mk htext

/-! ## Segments -/

theorem slash_mem_encodeChar : slash ∈ encodeChar c ↔ c = '/' := by
  rw [Utf8.mem_encodeChar_iff (by decide)]
  exact ⟨fun h => Char.toNat_inj.1 h, fun h => by rw [h]; rfl⟩

theorem slash_not_mem_encodeChar (hc : c ≠ '/') : slash ∉ encodeChar c :=
  mt slash_mem_encodeChar.1 hc

/-- **Octets fall into segments where their text does.** -/
theorem pieces_flatMap_encodeChar (cs : List Char) :
    Text.pieces slash (cs.flatMap encodeChar) =
      (Text.pieces '/' cs).map (List.flatMap encodeChar) := by
  induction cs with
  | nil => rfl
  | cons c cs ih =>
    rw [List.flatMap_cons]
    by_cases hc : c = '/'
    · subst hc
      have hslash : encodeChar '/' = [slash] := by decide
      rw [hslash, List.singleton_append, Text.pieces_cons_sep, Text.pieces_cons_sep, ih]
      rfl
    · obtain ⟨q, qs, hq, hpieces⟩ :=
        Text.pieces_append_of_not_mem (slash_not_mem_encodeChar hc) (cs.flatMap encodeChar)
      obtain ⟨r, rs, hr, hcons⟩ := Text.pieces_cons_of_ne cs hc
      rw [ih, hr, List.map_cons] at hq
      obtain ⟨rfl, rfl⟩ := List.cons.inj hq
      rw [hpieces, hcons, List.map_cons, List.flatMap_cons]

theorem segments_ofPath (p : Path) :
    (ofPath p).segments = p.segments.map (List.flatMap encodeChar) :=
  pieces_flatMap_encodeChar p.text.toList

/-- A segment of text is idle if its octets are. -/
theorem isIdle_flatMap (s : List Char) : isIdle (s.flatMap encodeChar) = Path.isIdle s := by
  have hdot : [0x2E] = ['.'].flatMap encodeChar := by decide
  rw [Bool.eq_iff_iff, isIdle, Path.isIdle, Bool.or_eq_true, Bool.or_eq_true, List.isEmpty_iff,
    List.isEmpty_iff, beq_iff_eq, beq_iff_eq, hdot]
  refine or_congr ⟨fun h => ?_, fun h => by rw [h]; rfl⟩
    ⟨Utf8.flatMap_encodeChar_inj, fun h => by rw [h]⟩
  exact Utf8.flatMap_encodeChar_inj (h.trans List.flatMap_nil.symm)

/-! ## Slashes at the ends -/

/-- Octets end in a slash where their text does. -/
theorem getLast?_flatMap (cs : List Char) :
    (cs.flatMap encodeChar).getLast? = some slash ↔ cs.getLast? = some '/' := by
  rcases List.eq_nil_or_concat' cs with rfl | ⟨ds, c, rfl⟩
  · simp
  rw [List.flatMap_append, List.flatMap_singleton, List.getLast?_append_of_ne_nil _
    (Utf8.encodeChar_ne_nil c), List.getLast?_concat, Option.some_inj]
  constructor
  · exact fun h => slash_mem_encodeChar.1 (List.mem_of_getLast? h)
  · rintro rfl
    decide

/-- Octets start with slashes where their text does. -/
theorem replicate_slash_prefix (k : Nat) (cs : List Char) :
    List.replicate k slash <+: cs.flatMap encodeChar ↔ List.replicate k '/' <+: cs := by
  induction k generalizing cs with
  | zero => simp
  | succ k ih =>
    rcases cs with _ | ⟨c, cs⟩
    · simp [List.replicate_succ]
    rw [List.flatMap_cons, List.replicate_succ, List.replicate_succ, List.cons_prefix_cons]
    by_cases hc : c = '/'
    · subst hc
      have hslash : encodeChar '/' = [slash] := by decide
      rw [hslash, List.singleton_append, List.cons_prefix_cons, ih]
      simp
    · refine iff_of_false (fun h => ?_) fun h => hc h.1.symm
      obtain ⟨b, bs, hb⟩ := List.exists_cons_of_ne_nil (Utf8.encodeChar_ne_nil c)
      rw [hb, List.cons_append, List.cons_prefix_cons] at h
      exact slash_not_mem_encodeChar hc (hb ▸ h.1 ▸ List.mem_cons_self)

theorem take_flatMap (k : Nat) (cs : List Char) :
    (cs.flatMap encodeChar).take k = List.replicate k slash ↔ cs.take k = List.replicate k '/' := by
  have hstarts {α : Type} (a : α) (xs : List α) :
      xs.take k = List.replicate k a ↔ List.replicate k a <+: xs := by
    rw [List.prefix_iff_eq_take, List.length_replicate, eq_comm]
  rw [hstarts, hstarts, replicate_slash_prefix]

theorem isRooted_ofPath (p : Path) : (ofPath p).isRooted = p.isRooted := by
  have hhead {α : Type} (a : α) (xs : List α) : xs.head? = some a ↔ xs.take 1 = [a] := by
    cases xs <;> simp
  rw [Bool.eq_iff_iff, isRooted, Path.isRooted, beq_iff_eq, beq_iff_eq, hhead, hhead]
  exact take_flatMap 1 p.text.toList

/-! ## Absolute spelling -/

/-- A segment is put behind a path as its octets are. -/
theorem ofPath_join {s : List Char} (hs : '/' ∉ s) (p : Path) :
    ofPath (p.join ⟨String.ofList s⟩) = (ofPath p).push (s.flatMap encodeChar) := by
  have hflat : (⟨String.ofList s⟩ : Path).isRooted = false := by
    rw [Path.isRooted, String.toList_ofList, beq_eq_false_iff_ne]
    exact fun h => hs (List.mem_of_head? h)
  have hlast : (encode p.text).getLast?.all (· == slash) =
      p.text.toList.getLast?.all (· == '/') := by
    have hall {α : Type} [BEq α] [LawfulBEq α] (o : Option α) (a : α) :
        o.all (· == a) = true ↔ o = none ∨ o = some a := by
      cases o <;> simp
    rw [Bool.eq_iff_iff, hall, hall, encode, getLast?_flatMap, List.getLast?_eq_none_iff,
      List.getLast?_eq_none_iff]
    refine or_congr_left ⟨fun h => Utf8.flatMap_encodeChar_inj (h.trans List.flatMap_nil.symm),
      fun h => by rw [h]; rfl⟩
  have hslash : encodeChar '/' = [slash] := by decide
  simp only [Path.join, hflat, Bool.false_eq_true, if_false, push, ofPath, hlast]
  split
  · simp [encode]
  · simp [encode, hslash]

/-- A path from the root has one spelling from wherever one is. -/
theorem absolute?_of_isRooted {p : OsPath} (h : p.isRooted = true) (home home' : OsPath) :
    p.absolute? home = p.absolute? home' := by
  simp only [absolute?, h, Bool.not_true, Bool.false_eq_true, if_false]

/-- **The absolute spelling of a text's octets is that of the text.** -/
theorem absolute?_ofPath (p home : Path) :
    absolute? p home = (p.absolute? home).map ofPath := by
  have hfold : ∀ (body : List (List Char)) (q : Path), (∀ s ∈ body, '/' ∉ s) →
      (body.map (List.flatMap encodeChar)).foldl push (ofPath q) =
        ofPath (body.foldl (fun q s => q.join ⟨String.ofList s⟩) q) := by
    intro body
    induction body with
    | nil => exact fun _ _ => rfl
    | cons s body ih =>
      intro q hbody
      rw [List.forall_mem_cons] at hbody
      rw [List.map_cons, List.foldl_cons, List.foldl_cons, ← ofPath_join hbody.1, ih _ hbody.2]
  have hempty : (ofPath p).octets = [] ↔ p.text = "" := by
    rw [← String.toList_eq_nil_iff]
    exact ⟨fun h => Utf8.flatMap_encodeChar_inj (h.trans List.flatMap_nil.symm),
      fun h => by rw [ofPath, encode, h]; rfl⟩
  have hbody : ((ofPath p).segments.filter fun s => !isIdle s) =
      (p.segments.filter fun s => !Path.isIdle s).map (List.flatMap encodeChar) := by
    rw [segments_ofPath, List.filter_map]
    congr 1
    refine List.filter_congr fun s _ => ?_
    rw [Function.comp_apply, isIdle_flatMap]
  have htwo : ((ofPath p).octets.take 2 = [slash, slash] ∧
      (ofPath p).octets.take 3 ≠ [slash, slash, slash]) ↔
      (p.text.toList.take 2 = ['/', '/'] ∧ p.text.toList.take 3 ≠ ['/', '/', '/']) :=
    and_congr (take_flatMap 2 p.text.toList) (take_flatMap 3 p.text.toList).not
  have hlast : (ofPath p).octets.getLast? = some slash ↔ p.text.toList.getLast? = some '/' :=
    getLast?_flatMap p.text.toList
  have hslash : (⟨[slash]⟩ : OsPath) = ofPath ⟨"/"⟩ := by decide
  have hslashes : (⟨[slash, slash]⟩ : OsPath) = ofPath ⟨"//"⟩ := by decide
  have hflat : ∀ s ∈ p.segments.filter fun s => !Path.isIdle s, '/' ∉ s := fun s hs =>
    Text.not_mem_of_mem_pieces (List.mem_filter.1 hs).1
  simp only [absolute?, Path.absolute?, hempty, hbody, htwo, hlast, isRooted_ofPath, hslash, hslashes]
  split
  · rfl
  simp only [Option.map_some, ← apply_ite ofPath, hfold _ _ hflat]
  split
  · exact congrArg some (ofPath_join (s := []) List.not_mem_nil _).symm
  · rfl

end OsPath

end ClassWeave
