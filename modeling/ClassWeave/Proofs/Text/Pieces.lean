import ClassWeave.Text.Basic
/-!
# Text -- pieces of longer texts

What cutting at a separator gives for texts put together: a separator
between two texts parts their pieces, a text without one is added to the
last piece, and pieces without one are what their join is cut into. So a text
goes on behind a separator after another exactly if its pieces go on after the
other's (`append_sep_prefix_iff`). Where a text without one stands in front of a
separator, the first cut is there, and where one stands behind it, the last.
-/


namespace ClassWeave

namespace Text

section

variable {α : Type} [DecidableEq α] {sep : α}

theorem pieces_cons_of_ne {c : α} (cs : List α) (hc : c ≠ sep) :
    ∃ p ps, pieces sep cs = p :: ps ∧ pieces sep (c :: cs) = (c :: p) :: ps := by
  rcases hp : pieces sep cs with _ | ⟨p, ps⟩
  · exact absurd hp (pieces_ne_nil sep cs)
  · refine ⟨p, ps, rfl, ?_⟩
    simp only [pieces, List.foldr_cons, if_neg hc] at hp ⊢
    rw [hp]

/-- A separator between two texts parts their pieces. -/
theorem pieces_append_sep (xs ys : List α) :
    pieces sep (xs ++ sep :: ys) = pieces sep xs ++ pieces sep ys := by
  induction xs with
  | nil => rw [List.nil_append, pieces_cons_sep]; rfl
  | cons x xs ih =>
    by_cases hx : x = sep
    · subst hx
      rw [List.cons_append, pieces_cons_sep, pieces_cons_sep, ih, List.cons_append]
    · obtain ⟨p, ps, hp, hcons⟩ := pieces_cons_of_ne xs hx
      obtain ⟨q, qs, hq, hcons'⟩ := pieces_cons_of_ne (xs ++ sep :: ys) hx
      rw [List.cons_append, hcons', hcons]
      rw [ih, hp, List.cons_append, List.cons.injEq] at hq
      obtain ⟨rfl, rfl⟩ := hq
      rfl

/-- A text without a separator is one piece. -/
theorem pieces_of_not_mem {xs : List α} (h : sep ∉ xs) : pieces sep xs = [xs] := by
  induction xs with
  | nil => rfl
  | cons x xs ih =>
    have hx : x ≠ sep := fun heq => h (heq ▸ List.mem_cons_self)
    obtain ⟨p, ps, hp, hcons⟩ := pieces_cons_of_ne xs hx
    rw [ih fun hmem => h (List.mem_cons_of_mem _ hmem), List.cons.injEq] at hp
    rw [hcons, ← hp.1, ← hp.2]

/-- Pieces hold no separator. -/
theorem not_mem_of_mem_pieces {xs p : List α} (hp : p ∈ pieces sep xs) : sep ∉ p := by
  induction xs generalizing p with
  | nil =>
    rw [pieces_of_not_mem List.not_mem_nil, List.mem_singleton] at hp
    rw [hp]
    exact List.not_mem_nil
  | cons x xs ih =>
    by_cases hx : x = sep
    · rw [hx, pieces_cons_sep] at hp
      rcases List.mem_cons.1 hp with rfl | hmem
      · exact List.not_mem_nil
      · exact ih hmem
    · obtain ⟨q, qs, hq, hcons⟩ := pieces_cons_of_ne xs hx
      rw [hcons] at hp
      rcases List.mem_cons.1 hp with rfl | hmem
      · rw [List.mem_cons, not_or]
        exact ⟨Ne.symm hx, ih (hq ▸ List.mem_cons_self)⟩
      · exact ih (hq ▸ List.mem_cons_of_mem _ hmem)

/-- A text without a separator goes to the first piece of what is behind
it. -/
theorem pieces_append_of_not_mem {xs : List α} (hxs : sep ∉ xs) (ys : List α) :
    ∃ p ps, pieces sep ys = p :: ps ∧ pieces sep (xs ++ ys) = (xs ++ p) :: ps := by
  induction xs with
  | nil =>
    obtain ⟨p, ps, hp⟩ := List.exists_cons_of_ne_nil (pieces_ne_nil sep ys)
    exact ⟨p, ps, hp, hp⟩
  | cons x xs ih =>
    rw [List.mem_cons, not_or] at hxs
    obtain ⟨p, ps, hp, hpieces⟩ := ih hxs.2
    obtain ⟨q, qs, hq, hcons⟩ := pieces_cons_of_ne (xs ++ ys) (Ne.symm hxs.1)
    obtain ⟨rfl, rfl⟩ := List.cons.inj (hq.symm.trans hpieces)
    exact ⟨p, qs, hp, hcons⟩

end

variable {sep : Char}

/-- Whatever is not the separator is in one of the pieces. -/
theorem mem_iff_exists_piece {c : Char} (hc : c ≠ sep) {xs : List Char} :
    c ∈ xs ↔ ∃ p ∈ pieces sep xs, c ∈ p := by
  have hjoin := join_pieces sep xs
  rcases hp : pieces sep xs with _ | ⟨p, ps⟩
  · exact absurd hp (pieces_ne_nil sep xs)
  · rw [hp] at hjoin
    rw [← hjoin]
    simp [join, hc]

theorem join_append {ps : List (List Char)} (hps : ps ≠ []) (qs : List (List Char)) :
    join sep (ps ++ qs) = join sep ps ++ qs.flatMap (sep :: ·) := by
  obtain ⟨p, ps, rfl⟩ := List.exists_cons_of_ne_nil hps
  simp [join]

/-- **A text in front of a separator** of another is one whose pieces the other
starts with, and goes on after. -/
theorem append_sep_prefix_iff {xs ys : List Char} :
    xs ++ [sep] <+: ys ↔ pieces sep xs <+: pieces sep ys ∧ pieces sep xs ≠ pieces sep ys := by
  constructor
  · rintro ⟨rest, rfl⟩
    rw [List.append_assoc, List.singleton_append, pieces_append_sep]
    refine ⟨List.prefix_append _ _, fun heq => pieces_ne_nil sep rest ?_⟩
    exact List.self_eq_append_right.1 heq
  · rintro ⟨⟨more, hmore⟩, hne⟩
    rcases more with _ | ⟨p, ps⟩
    · exact absurd ((List.append_nil _).symm.trans hmore) hne
    -- the first of the pieces behind brings the separator with it
    have hys : ys = xs ++ (p :: ps).flatMap (sep :: ·) := by
      rw [← join_pieces sep ys, ← hmore, join_append (pieces_ne_nil sep xs), join_pieces]
    rw [hys, List.flatMap_cons, List.cons_append]
    exact (List.prefix_append_right_inj xs).2 (List.cons_prefix_cons.2 ⟨rfl, List.nil_prefix⟩)

/-- What is in joined texts is a separator, or in one of them. -/
theorem of_mem_join {c : Char} {ps : List (List Char)} (h : c ∈ join sep ps) :
    c = sep ∨ ∃ q ∈ ps, c ∈ q := by
  rcases ps with _ | ⟨q, qs⟩
  · cases h
  rw [join, List.mem_append, List.mem_flatMap] at h
  rcases h with h | ⟨q', hq', h⟩
  · exact .inr ⟨q, List.mem_cons_self, h⟩
  · rcases List.mem_cons.1 h with rfl | h
    · exact .inl rfl
    · exact .inr ⟨q', List.mem_cons_of_mem _ hq', h⟩

/-- **Cutting undoes joining** for pieces without a separator. -/
theorem pieces_join {ps : List (List Char)} (hps : ps ≠ []) (hsep : ∀ p ∈ ps, sep ∉ p) :
    pieces sep (join sep ps) = ps := by
  induction ps with
  | nil => exact absurd rfl hps
  | cons p ps ih =>
    have hp : sep ∉ p := hsep p List.mem_cons_self
    rcases ps with _ | ⟨q, qs⟩
    · rw [show join sep [p] = p from List.append_nil p, pieces_of_not_mem hp]
    · have hjoin : join sep (p :: q :: qs) = p ++ sep :: join sep (q :: qs) := by simp [join]
      rw [hjoin, pieces_append_sep, pieces_of_not_mem hp,
        ih (List.cons_ne_nil _ _) fun r hr => hsep r (List.mem_cons_of_mem _ hr)]
      rfl

/-- The first separator of a text is the one in front of which there is
none. -/
theorem cutFirst?_append {xs : List Char} (hxs : sep ∉ xs) (ys : List Char) :
    cutFirst? sep (xs ++ sep :: ys) = some (xs, ys) := by
  have hne : ∀ c ∈ xs, decide (c ≠ sep) = true := fun c hc =>
    decide_eq_true fun heq => hxs (heq ▸ hc)
  rw [cutFirst?, List.dropWhile_append_of_pos hne, List.takeWhile_append_of_pos hne]
  simp

/-- Joining is what texts are put together by. -/
theorem join_eq_intercalate (sep : Char) (ps : List (List Char)) :
    join sep ps = [sep].intercalate ps := by
  induction ps with
  | nil => rfl
  | cons p ps ih =>
    rcases ps with _ | ⟨q, qs⟩
    · simp [join]
    · rw [List.intercalate_cons_cons, ← ih]
      simp [join]

/-- Pieces are parted by another mark when theirs is rewritten. -/
theorem map_join {a b : Char} {ps : List (List Char)} (hps : ∀ p ∈ ps, a ∉ p) :
    (join a ps).map (fun c => if c = a then b else c) = join b ps := by
  have hpiece : ∀ p ∈ ps, p.map (fun c => if c = a then b else c) = p := by
    intro p hp
    refine (List.map_congr_left fun c hc => if_neg ?_).trans (List.map_id p)
    rintro rfl
    exact hps p hp hc
  rcases ps with _ | ⟨p, ps⟩
  · rfl
  rw [List.forall_mem_cons] at hpiece
  rw [join, join, List.map_append, hpiece.1, List.map_flatMap, List.flatMap_def, List.flatMap_def]
  refine congrArg (fun parts => p ++ parts.flatten) (List.map_congr_left fun q hq => ?_)
  rw [List.map_cons, if_pos rfl, hpiece.2 q hq]

theorem cutLast?_append (xs : List Char) {ys : List Char} (hys : sep ∉ ys) :
    cutLast? sep (xs ++ sep :: ys) = some (xs, ys) := by
  have hrev : (xs ++ sep :: ys).reverse = ys.reverse ++ sep :: xs.reverse := by simp
  rw [cutLast?, hrev, cutFirst?_append (mt List.mem_reverse.1 hys)]
  simp

end Text

end ClassWeave
