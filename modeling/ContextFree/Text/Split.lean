import ContextFree.Text.Blank

/-!
# Cutting text

Text is cut at every character of a class, so that `n` such characters leave `n + 1` pieces, some of
them perhaps empty.  Lines are the pieces between line feeds, words the pieces between blanks that
are not empty.
-/

namespace ContextFree.Text

/-- Puts a character in front of the first piece. -/
def consFirst (c : Char) : List (List Char) → List (List Char)
  | [] => [[c]]
  | piece :: pieces => (c :: piece) :: pieces

/-- The pieces between the characters of a class. -/
def pieces (isCut : Char → Bool) : List Char → List (List Char)
  | [] => [[]]
  | c :: text => if isCut c then [] :: pieces isCut text else consFirst c (pieces isCut text)

/-- The maximal runs of characters that are not blank. -/
def words (text : List Char) : List (List Char) :=
  (pieces isBlank text).filter (· ≠ [])

/-- The parts before and after the first arrow. -/
def cutArrow? : List Char → Option (List Char × List Char)
  | [] => none
  | '-' :: '>' :: text => some ([], text)
  | c :: text => (cutArrow? text).map fun (before, after) ↦ (c :: before, after)

@[simp] theorem pieces_ne_nil (isCut : Char → Bool) (text : List Char) :
    pieces isCut text ≠ [] := by
  cases text with
  | nil => simp [pieces]
  | cons c text =>
    unfold pieces consFirst
    split
    · simp
    · split <;> simp

end ContextFree.Text
