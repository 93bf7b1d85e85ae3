/-!
# Text -- blanks, pieces and joins

Cutting text at a separator, trimming blanks off its ends and joining
pieces again, on lists of characters. A blank is a character with the
Unicode property `White_Space`.
-/


namespace ClassWeave

namespace Text

/-! ## Blanks -/

/-- The characters with the Unicode property `White_Space`. -/
def isBlank (c : Char) : Bool :=
  let n := c.toNat
  (0x09 ≤ n && n ≤ 0x0D) || n == 0x20 || n == 0x85 || n == 0xA0 || n == 0x1680
    || (0x2000 ≤ n && n ≤ 0x200A) || n == 0x2028 || n == 0x2029 || n == 0x202F
    || n == 0x205F || n == 0x3000

/-- Text without the blanks at its end. -/
def trimEnd (cs : List Char) : List Char :=
  (cs.reverse.dropWhile isBlank).reverse

/-- Text without the blanks at either end. -/
def trim (cs : List Char) : List Char :=
  trimEnd (cs.dropWhile isBlank)

/-- Text that holds nothing but blanks. -/
def isAllBlank (cs : List Char) : Bool := cs.all isBlank

def trimString (s : String) : String := String.ofList (trim s.toList)

/-! ## Pieces -/

/-- The pieces between the separators; a text with no separator is one
piece. -/
def pieces {α : Type} [DecidableEq α] (sep : α) (cs : List α) : List (List α) :=
  cs.foldr (fun c ps =>
    if c = sep then [] :: ps
    else match ps with
      | p :: ps => (c :: p) :: ps
      | [] => [[c]]) [[]]

/-- Pieces put together with the separator between them. -/
def join {α : Type} (sep : α) : List (List α) → List α
  | [] => []
  | p :: ps => p ++ ps.flatMap (sep :: ·)

/-- What stands before and after the first separator. -/
def cutFirst? (sep : Char) (cs : List Char) : Option (List Char × List Char) :=
  match cs.dropWhile (· ≠ sep) with
  | [] => none
  | _ :: after => some (cs.takeWhile (· ≠ sep), after)

/-- What stands before and after the last separator. -/
def cutLast? (sep : Char) (cs : List Char) : Option (List Char × List Char) :=
  (cutFirst? sep cs.reverse).map fun (after, before) => (before.reverse, after.reverse)

section

variable {α : Type} [DecidableEq α]

theorem pieces_cons_sep (sep : α) (cs : List α) :
    pieces sep (sep :: cs) = [] :: pieces sep cs := by
  simp [pieces]

/-- There is always a first piece. -/
theorem pieces_ne_nil (sep : α) (cs : List α) : pieces sep cs ≠ [] := by
  cases cs with
  | nil => simp [pieces]
  | cons c cs =>
    simp only [pieces, List.foldr_cons]
    split
    · simp
    · split <;> simp

/-- Joining undoes cutting. -/
theorem join_pieces (sep : α) (cs : List α) : join sep (pieces sep cs) = cs := by
  induction cs with
  | nil => rfl
  | cons c cs ih =>
    simp only [pieces, List.foldr_cons] at ih ⊢
    split
    · next h =>
      subst h
      rcases hp : List.foldr _ [[]] cs with _ | ⟨p, ps⟩
      · exact absurd hp (pieces_ne_nil c cs)
      · rw [hp] at ih
        simpa [join] using ih
    · rcases hp : List.foldr _ [[]] cs with _ | ⟨p, ps⟩
      · exact absurd hp (pieces_ne_nil sep cs)
      · rw [hp] at ih
        simpa [join] using ih

end

/-! ## Letter case -/

/-- An ASCII capital turned small; every other character stays. -/
def lowerAscii (c : Char) : Char :=
  if 'A' ≤ c ∧ c ≤ 'Z' then Char.ofNat (c.toNat + 32) else c

/-- Text with its ASCII capitals turned small. -/
def lower (s : String) : String := String.ofList (s.toList.map lowerAscii)

end Text

end ClassWeave
