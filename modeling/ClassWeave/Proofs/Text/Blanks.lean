import ClassWeave.Proofs.Text.Pieces
import Mathlib.Data.List.DropRight
/-!
# Text -- trimmed texts and last cuts

A text is trimmed if no blank is at either end of it (`trim_eq_self_iff`), and
trimming leaves such a text, whatever it is given (`trim_trim`). The last cut
of a text is where no separator is behind it, as the first is where none is
in front (`cutLast?_cases`).
-/


namespace ClassWeave

namespace Text

variable {sep c : Char} {cs : List Char}

/-! ## Blanks at the ends -/

theorem trimEnd_eq (cs : List Char) : trimEnd cs = cs.rdropWhile isBlank := rfl

theorem trim_infix (cs : List Char) : trim cs <:+: cs :=
  (List.rdropWhile_prefix isBlank _).isInfix.trans (List.dropWhile_suffix isBlank).isInfix

/-- **A text is trimmed** if it neither starts nor ends with a blank. -/
theorem trim_eq_self_iff :
    trim cs = cs ↔ (∀ c ∈ cs.head?, isBlank c = false) ∧ ∀ c ∈ cs.getLast?, isBlank c = false := by
  constructor
  · intro h
    have hstart : cs.dropWhile isBlank = cs := by
      refine (List.dropWhile_suffix isBlank).eq_of_length_le ?_
      calc cs.length = (trim cs).length := by rw [h]
        _ ≤ (cs.dropWhile isBlank).length := (List.rdropWhile_prefix isBlank _).length_le
    have hend : cs.rdropWhile isBlank = cs := by rwa [trim, hstart, trimEnd_eq] at h
    refine ⟨fun c hc => ?_, fun c hc => ?_⟩
    · obtain ⟨cs', rfl⟩ := List.head?_eq_some_iff.1 hc
      simpa using List.dropWhile_eq_self_iff.1 hstart
    · obtain ⟨cs', rfl⟩ := List.getLast?_eq_some_iff.1 hc
      simpa using List.rdropWhile_eq_self_iff.1 hend
  · rintro ⟨hhead, hlast⟩
    have hstart : cs.dropWhile isBlank = cs := by
      rcases cs with _ | ⟨c, cs⟩
      · rfl
      · rw [List.dropWhile_cons_of_neg (by rw [hhead c rfl]; nofun)]
    rw [trim, hstart, trimEnd_eq, List.rdropWhile_eq_self_iff]
    intro hne
    rw [hlast _ (List.getLast?_eq_some_getLast hne)]
    nofun

theorem trim_of_not_blank (h : ∀ c ∈ cs, isBlank c = false) : trim cs = cs :=
  trim_eq_self_iff.2 ⟨fun c hc => h c (List.mem_of_head? hc), fun c hc => h c (List.mem_of_getLast? hc)⟩

/-- **Trimming leaves a trimmed text.** -/
theorem trim_trim (cs : List Char) : trim (trim cs) = trim cs := by
  rw [trim_eq_self_iff]
  refine ⟨fun c hc => ?_, fun c hc => ?_⟩
  · -- the first character is the first that blanks were dropped in front of
    obtain ⟨ds, hds⟩ := List.head?_eq_some_iff.1 hc
    have hfront : trim cs <+: cs.dropWhile isBlank := List.rdropWhile_prefix isBlank _
    rw [hds] at hfront
    obtain ⟨es, hes⟩ := hfront
    have hhead := List.head?_dropWhile_not isBlank cs
    rwa [← hes] at hhead
  · obtain ⟨ds, hds⟩ := List.getLast?_eq_some_iff.1 hc
    have hend : (trim cs).rdropWhile isBlank = trim cs := List.rdropWhile_idempotent isBlank _
    rw [hds] at hend
    simpa using List.rdropWhile_eq_self_iff.1 hend

/-- Text that is not all blank starts with something when it is trimmed. -/
theorem trim_ne_nil (h : isAllBlank cs = false) : trim cs ≠ [] := by
  intro hnil
  have hrest : cs.dropWhile isBlank = [] := by
    rw [trim, trimEnd_eq, List.rdropWhile_eq_nil_iff] at hnil
    by_contra hne
    have hhead := List.head?_dropWhile_not isBlank cs
    obtain ⟨d, ds, hds⟩ := List.exists_cons_of_ne_nil hne
    rw [hds] at hhead hnil
    cases (hnil d List.mem_cons_self).symm.trans hhead
  rw [isAllBlank, List.all_eq_false] at h
  obtain ⟨c, hc, hblank⟩ := h
  exact hblank (List.dropWhile_eq_nil_iff.1 hrest c hc)

/-! ## Cuts -/

theorem cutFirst?_of_not_mem (h : sep ∉ cs) : cutFirst? sep cs = none := by
  have hall : cs.dropWhile (fun c => decide (c ≠ sep)) = [] :=
    List.dropWhile_eq_nil_iff.2 fun c hc => decide_eq_true fun heq => h (heq ▸ hc)
  rw [cutFirst?, hall]

/-- **The first cut of a text**: there is no separator in it, or one that has
none in front. -/
theorem cutFirst?_cases (sep : Char) (cs : List Char) :
    sep ∉ cs ∧ cutFirst? sep cs = none ∨
      ∃ xs ys, cs = xs ++ sep :: ys ∧ sep ∉ xs ∧ cutFirst? sep cs = some (xs, ys) := by
  by_cases h : sep ∈ cs
  · obtain ⟨xs, ys, rfl, hxs⟩ := List.eq_append_cons_of_mem h
    exact .inr ⟨xs, ys, rfl, hxs, cutFirst?_append hxs ys⟩
  · exact .inl ⟨h, cutFirst?_of_not_mem h⟩

/-- **The last cut of a text**: there is no separator in it, or one that has
none behind. -/
theorem cutLast?_cases (sep : Char) (cs : List Char) :
    sep ∉ cs ∧ cutLast? sep cs = none ∨
      ∃ xs ys, cs = xs ++ sep :: ys ∧ sep ∉ ys ∧ cutLast? sep cs = some (xs, ys) := by
  rcases cutFirst?_cases sep cs.reverse with ⟨hnot, hcut⟩ | ⟨ys, xs, hcs, hys, hcut⟩
  · exact .inl ⟨mt List.mem_reverse.2 hnot, by rw [cutLast?, hcut, Option.map_none]⟩
  · refine .inr ⟨xs.reverse, ys.reverse, ?_, mt List.mem_reverse.1 hys, ?_⟩
    · rw [← cs.reverse_reverse, hcs]
      simp
    · rw [cutLast?, hcut, Option.map_some]

end Text

end ClassWeave
