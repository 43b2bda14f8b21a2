import ContextFree.Proofs.Text.Split
import Mathlib.Data.List.DropRight

/-!
# Trimmed text

A text stands between two runs of blanks, and what is left without them neither begins nor ends with
a blank.  Its words are those of the whole text, so a text is one word exactly when it is that word
once it is trimmed.
-/

namespace ContextFree.Text

variable {isCut : Char → Bool} {c : Char} {text first last rest word : List Char}

/-- The text without the blanks at its two ends. -/
def trim (text : List Char) : List Char := (text.dropWhile isBlank).rdropWhile isBlank

/-- There is one word between the blanks at the ends. -/
structure OneWord (text : List Char) : Prop where
  ne_nil : trim text ≠ []
  noBlank : ∀ c ∈ trim text, isBlank c = false

/-- The pieces of a text are what the library splits it into. -/
theorem pieces_eq_splitOnP : pieces isCut text = text.splitOnP isCut := by
  induction text with
  | nil => rfl
  | cons c text ih =>
    rw [pieces, List.splitOnP_cons_eq_if_modifyHead, ih]
    split
    · rfl
    · cases hparts : text.splitOnP isCut with
      | nil => exact absurd hparts (List.splitOnP_ne_nil isCut text)
      | cons first further => rfl

/-- A character that does not cut goes to the last piece. -/
theorem pieces_concat (isCut : Char → Bool) (hc : isCut c = false) (text : List Char) :
    ∃ front last, pieces isCut text = front ++ [last] ∧
      pieces isCut (text ++ [c]) = front ++ [last ++ [c]] := by
  induction text with
  | nil => exact ⟨[], [], rfl, pieces_eq_singleton (by simpa using hc)⟩
  | cons d text ih =>
    obtain ⟨front, last, htext, hconcat⟩ := ih
    rw [List.cons_append]
    unfold pieces
    rw [htext, hconcat]
    split
    · exact ⟨[] :: front, last, rfl, rfl⟩
    · cases front with
      | nil => exact ⟨[], d :: last, rfl, rfl⟩
      | cons first front => exact ⟨(d :: first) :: front, last, rfl, rfl⟩

/-! ## Blanks at the ends -/

theorem words_concat_blank (hc : isBlank c = true) : words (text ++ [c]) = words text := by
  rw [words_append_blank hc]
  exact List.append_nil _

/-- Blanks behind a text add no word. -/
theorem words_append_blanks (hlast : ∀ c ∈ last, isBlank c = true) :
    words (text ++ last) = words text := by
  induction last using List.reverseRecOn with
  | nil => rw [List.append_nil]
  | append_singleton last c ih =>
    simp only [List.forall_mem_append, List.forall_mem_singleton] at hlast
    rw [← List.append_assoc, words_concat_blank hlast.2, ih hlast.1]

/-- The text stands trimmed between blanks. -/
theorem exists_eq_append_trim (text : List Char) : ∃ first last, text = first ++ trim text ++ last ∧
    (∀ c ∈ first, isBlank c = true) ∧ ∀ c ∈ last, isBlank c = true := by
  refine ⟨text.takeWhile isBlank, (text.dropWhile isBlank).rtakeWhile isBlank, ?_, ?_, ?_⟩
  · rw [trim, List.append_assoc, List.rdropWhile_append_rtakeWhile, List.takeWhile_append_dropWhile]
  · exact fun c hc ↦ List.mem_takeWhile_imp hc
  · exact fun c hc ↦ List.mem_rtakeWhile_imp hc

theorem words_trim (text : List Char) : words (trim text) = words text := by
  obtain ⟨first, last, htext, hfirst, hlast⟩ := exists_eq_append_trim text
  calc words (trim text)
      = words (trim text ++ last) := (words_append_blanks hlast).symm
    _ = words (first ++ (trim text ++ last)) := (words_append_of_blank hfirst _).symm
    _ = words text := by rw [← List.append_assoc, ← htext]

theorem isBlank_of_dropWhile_eq_cons (htext : text.dropWhile isBlank = c :: rest) :
    isBlank c = false := by
  have hhead := List.head?_dropWhile_not isBlank text
  rw [htext] at hhead
  simpa using hhead

/-- Trimming behind leaves a first character that is no blank. -/
theorem rdropWhile_cons (hc : isBlank c = false) (rest : List Char) :
    (c :: rest).rdropWhile isBlank = c :: rest.rdropWhile isBlank := by
  induction rest using List.reverseRecOn with
  | nil => simp [hc]
  | append_singleton rest d ih =>
    rw [← List.cons_append, List.rdropWhile_concat, List.rdropWhile_concat, ih]
    split <;> rfl

/-- A trimmed text begins as the text does behind its first blanks. -/
theorem trim_eq_cons_iff : trim text = c :: rest ↔
    ∃ behind, text.dropWhile isBlank = c :: behind ∧ behind.rdropWhile isBlank = rest := by
  rw [trim]
  cases hfront : text.dropWhile isBlank with
  | nil => simp
  | cons d behind =>
    rw [rdropWhile_cons (isBlank_of_dropWhile_eq_cons hfront)]
    simp only [List.cons.injEq]
    constructor
    · intro hsame
      exact ⟨behind, ⟨hsame.1, rfl⟩, hsame.2⟩
    · intro hsame
      obtain ⟨_, ⟨hc, rfl⟩, hrest⟩ := hsame
      exact ⟨hc, hrest⟩

theorem isBlank_of_trim_eq_cons (htext : trim text = c :: rest) : isBlank c = false := by
  obtain ⟨behind, hfront, -⟩ := trim_eq_cons_iff.1 htext
  exact isBlank_of_dropWhile_eq_cons hfront

theorem isBlank_of_trim_eq_concat (htext : trim text = first ++ [c]) : isBlank c = false := by
  have hne : trim text ≠ [] := by simp [htext]
  have hlast : ¬ isBlank ((trim text).getLast hne) = true :=
    List.rdropWhile_last_not isBlank (text.dropWhile isBlank) hne
  simpa [htext] using hlast

/-! ## Words of a trimmed text -/

theorem words_eq_nil_iff : words text = [] ↔ ∀ c ∈ text, isBlank c = true := by
  induction text with
  | nil => simp [words, pieces]
  | cons c text ih =>
    cases hc : isBlank c with
    | true => simp [words_blank_cons hc, ih, hc]
    | false =>
      cases hpieces : pieces isBlank text with
      | nil => exact absurd hpieces (pieces_ne_nil isBlank text)
      | cons piece further => simp [words, pieces, consFirst, hc, hpieces]

theorem trim_eq_nil_iff : trim text = [] ↔ words text = [] := by
  constructor
  · intro hnone
    rw [← words_trim, hnone]
    rfl
  · intro hnone
    rw [words_eq_nil_iff] at hnone
    rw [trim, List.dropWhile_eq_nil_iff.2 hnone, List.rdropWhile_nil]

/-- On either side of a blank, a trimmed text has a word. -/
theorem words_ne_nil_of_trim_eq {front behind : List Char}
    (htext : trim text = front ++ c :: behind) (hc : isBlank c = true) :
    words front ≠ [] ∧ words behind ≠ [] := by
  constructor
  · cases front with
    | nil => exact absurd hc (by simp [isBlank_of_trim_eq_cons htext])
    | cons d front =>
      have hd : isBlank d = false := isBlank_of_trim_eq_cons htext
      exact fun hnone ↦ absurd (words_eq_nil_iff.1 hnone d List.mem_cons_self) (by simp [hd])
  · rcases List.eq_nil_or_concat behind with rfl | ⟨behind, d, rfl⟩
    · exact absurd hc (by simp [isBlank_of_trim_eq_concat htext])
    · have hd : isBlank d = false := by
        have hlast : trim text = (front ++ c :: behind) ++ [d] := by simpa using htext
        exact isBlank_of_trim_eq_concat hlast
      intro hnone
      exact absurd (words_eq_nil_iff.1 hnone d (by simp)) (by simp [hd])

/-- A text has a single word exactly when it is that word once it is trimmed. -/
theorem words_eq_singleton_iff : words text = [word] ↔ OneWord text ∧ trim text = word := by
  rw [← words_trim]
  constructor
  · intro hword
    have hnoBlank : ∀ c ∈ trim text, isBlank c = false := by
      intro c hc
      by_contra hblank
      rw [Bool.not_eq_false] at hblank
      obtain ⟨front, behind, htext⟩ := List.append_of_mem hc
      obtain ⟨hfront, hbehind⟩ := words_ne_nil_of_trim_eq htext hblank
      rw [htext, words_append_blank hblank] at hword
      rcases List.append_eq_singleton_iff.1 hword with ⟨hnone, -⟩ | ⟨-, hnone⟩
      · exact hfront hnone
      · exact hbehind hnone
    have hne : trim text ≠ [] := by
      intro hnone
      rw [hnone] at hword
      exact absurd hword (List.cons_ne_nil _ _).symm
    rw [words_eq_singleton hne hnoBlank] at hword
    exact ⟨⟨hne, hnoBlank⟩, List.singleton_inj.1 hword⟩
  · intro hword
    obtain ⟨hone, rfl⟩ := hword
    exact words_eq_singleton hone.ne_nil hone.noBlank

end ContextFree.Text
