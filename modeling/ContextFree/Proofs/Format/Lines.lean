import ContextFree.Grammar.Reading
import ContextFree.Proofs.Text.Trim

/-!
# The lines of a written grammar

What a line of a written grammar must look like, and what it says, is described here by the arrows,
bars and blanks that stand in it, and by nothing that the reader computes.  A line fits behind the
lines before it, or it has a fault; the reader takes the lines apart as described when all of them
fit, and stops at the first one that does not.
-/

namespace ContextFree.Format

/-! ## The description -/

/-- A line that is not blank. -/
structure Line where
  number : Nat
  text : List Char
deriving DecidableEq, Repr

def dropReturn (line : List Char) : List Char :=
  if line.getLast? = some '\r' then line.dropLast else line

/-- The lines of a text.  A line feed ends a line, alone or behind a carriage return. -/
def allLines (text : List Char) : List (List Char) :=
  (text.splitOn '\n').dropLast.map dropReturn ++ (text.splitOn '\n').getLast?.toList

/-- Numbers lines from a given number on, and leaves out the blank ones. -/
def numbered (number : Nat) (lines : List (List Char)) : List Line :=
  ((lines.zipIdx number).map fun (line, i) ↦ ⟨i, line⟩).filter fun line ↦
    !line.text.all Text.isBlank

/-- The lines of a text that are not blank, numbered from one. -/
def lines (text : String) : List Line :=
  numbered 1 (allLines text.toList)

/-- The text has one arrow, between two parts. -/
structure CutOnce (text before after : List Char) : Prop where
  parts : text = before ++ '-' :: '>' :: after
  before_free : ¬ Text.HasArrow before
  after_free : ¬ Text.HasArrow after

namespace Line

/-- A line has at most one arrow; in front of an arrow stands one word; and a line without an arrow
begins with a bar and stands behind some other line. -/
structure Fits (earlier : List Line) (line : Line) : Prop where
  oneArrow : ∀ before after, line.text = before ++ '-' :: '>' :: after → ¬ Text.HasArrow after
  left : ∀ before after, line.text = before ++ '-' :: '>' :: after → Text.OneWord before
  earlier_ne_nil : ¬ Text.HasArrow line.text → earlier ≠ []
  bar : ¬ Text.HasArrow line.text → (Text.trim line.text).head? = some '|'

/-- What is wrong with a line that does not fit. -/
inductive HeadFault (earlier : List Line) (line : Line) : LineFault → Prop
  | manyArrows {before after : List Char} : line.text = before ++ '-' :: '>' :: after →
    Text.HasArrow after → HeadFault earlier line .manyArrows
  | emptyLeft {before after : List Char} : CutOnce line.text before after →
    Text.trim before = [] → HeadFault earlier line .emptyLeft
  | spacedLeft {before after : List Char} {c : Char} : CutOnce line.text before after →
    c ∈ Text.trim before → Text.isBlank c = true → HeadFault earlier line .spacedLeft
  | noLeft : ¬ Text.HasArrow line.text → earlier = [] → HeadFault earlier line .noLeft
  | noSeparator : ¬ Text.HasArrow line.text → earlier ≠ [] →
    (Text.trim line.text).head? ≠ some '|' → HeadFault earlier line .noSeparator

end Line

/-- Every line fits behind the lines before it. -/
def AllFit (earlier lines : List Line) : Prop :=
  ∀ before line after, lines = before ++ line :: after → line.Fits (earlier ++ before)

/-- What a line says: the left-hand side that stands on it, if one does, and alternatives. -/
structure Entry where
  number : Nat
  left? : Option Name
  alternatives : List (List Name)
deriving DecidableEq, Repr

/-- Bars stand between alternatives, and blanks between tokens. -/
def alternatives (text : List Char) : List (List Name) :=
  (text.splitOn '|').map fun alternative ↦
    ((alternative.splitOnP Text.isBlank).filter (· ≠ [])).map String.ofList

/-- An arrow stands between a left-hand side and its alternatives; without an arrow, alternatives
stand behind the bar that the line begins with. -/
inductive Line.Says (line : Line) : Entry → Prop
  | rule {before after : List Char} : CutOnce line.text before after →
    Says line ⟨line.number, some (String.ofList (Text.trim before)), alternatives after⟩
  | continuation {rest : List Char} : ¬ Text.HasArrow line.text →
    Text.trim line.text = '|' :: rest → Says line ⟨line.number, none, alternatives rest⟩

/-! ## One line -/

section Line

variable {earlier : List Line} {line : Line} {before after text : List Char}
  {previous : Option Name} {fault : LineFault}

theorem CutOnce.cutArrow? (hcut : CutOnce text before after) :
    Text.cutArrow? text = some (before, after) := by
  rw [hcut.parts]
  exact Text.cutArrow?_append hcut.before_free after

theorem CutOnce.hasArrow (hcut : CutOnce text before after) : Text.HasArrow text := by
  rw [hcut.parts]
  exact (Text.hasArrow_cons_cons after).mono (List.suffix_append before _).isInfix

/-- A line says one thing at most. -/
theorem Line.Says.unique {entry other : Entry} (hentry : line.Says entry)
    (hother : line.Says other) : entry = other := by
  cases hentry with
  | rule hcut =>
    cases hother with
    | rule hcut' =>
      obtain ⟨rfl, rfl⟩ := Prod.mk.inj (Option.some.inj (hcut.cutArrow?.symm.trans hcut'.cutArrow?))
      rfl
    | continuation hfree _ => exact absurd hcut.hasArrow hfree
  | continuation hfree hbar =>
    cases hother with
    | rule hcut => exact absurd hcut.hasArrow hfree
    | continuation _ hbar' =>
      obtain rfl := (List.cons.inj (hbar.symm.trans hbar')).2
      rfl

theorem Line.Says.forall_iff {entry : Entry} {holds : Entry → Prop} (hsaid : line.Says entry) :
    (∀ other, line.Says other → holds other) ↔ holds entry :=
  ⟨fun hall ↦ hall entry hsaid, fun hentry _ hother ↦ hsaid.unique hother ▸ hentry⟩

theorem Line.Says.number_eq {entry : Entry} (hsaid : line.Says entry) :
    entry.number = line.number := by
  cases hsaid <;> rfl

/-- The line is cut at its one arrow, or has none. -/
theorem cutOnce_or_not_hasArrow
    (hone : ∀ before after, text = before ++ '-' :: '>' :: after → ¬ Text.HasArrow after) :
    (∃ before after, CutOnce text before after) ∨ ¬ Text.HasArrow text := by
  cases hcut : Text.cutArrow? text with
  | none => exact .inr (Text.cutArrow?_eq_none_iff.1 hcut)
  | some parts =>
    obtain ⟨hparts, hbefore⟩ := Text.of_cutArrow?_eq_some hcut
    exact .inl ⟨parts.1, parts.2, hparts, hbefore, hone _ _ hparts⟩

/-- An arrow in front of an arrow is the first of two. -/
theorem exists_second_arrow (hbefore : Text.HasArrow before) (after : List Char) :
    ∃ front back, before ++ '-' :: '>' :: after = front ++ '-' :: '>' :: back ∧
      ¬ Text.HasArrow front ∧ Text.HasArrow back := by
  cases hcut : Text.cutArrow? before with
  | none => exact absurd hbefore (Text.cutArrow?_eq_none_iff.1 hcut)
  | some parts =>
    obtain ⟨front, back⟩ := parts
    obtain ⟨rfl, hfront⟩ := Text.of_cutArrow?_eq_some hcut
    refine ⟨front, back ++ '-' :: '>' :: after, by simp, hfront, ?_⟩
    exact (Text.hasArrow_cons_cons after).mono (List.suffix_append back _).isInfix

/-- A line that does not fit has a fault. -/
theorem exists_headFault (hunfit : ¬ line.Fits earlier) :
    ∃ fault, line.HeadFault earlier fault := by
  by_contra hnone
  rw [not_exists] at hnone
  have hone : ∀ before after, line.text = before ++ '-' :: '>' :: after →
      ¬ Text.HasArrow after := fun _ _ hparts harrow ↦ hnone _ (.manyArrows hparts harrow)
  refine hunfit ⟨hone, fun before after hparts ↦ ?_, fun hfree hfirst ↦ ?_, fun hfree ↦ ?_⟩
  · have hbefore : ¬ Text.HasArrow before := by
      intro harrow
      obtain ⟨front, back, hsame, -, hback⟩ := exists_second_arrow harrow after
      exact hone front back (hparts.trans hsame) hback
    have hcut : CutOnce line.text before after := ⟨hparts, hbefore, hone before after hparts⟩
    refine ⟨fun hempty ↦ hnone _ (.emptyLeft hcut hempty), fun c hc ↦ ?_⟩
    by_contra hblank
    exact hnone _ (.spacedLeft hcut hc (by simpa using hblank))
  · exact hnone _ (.noLeft hfree hfirst)
  · by_contra hbar
    have hearlier : earlier ≠ [] := fun hfirst ↦ hnone _ (.noLeft hfree hfirst)
    exact hnone _ (.noSeparator hfree hearlier hbar)

/-! ## Reading one line -/

theorem readAlternatives_eq (text : List Char) :
    Clause.readAlternatives text = alternatives text := by
  simp only [Clause.readAlternatives, alternatives, Text.words, Text.pieces_eq_splitOnP,
    List.splitOn_eq_splitOnP]

/-- Blanks behind the alternatives do not count. -/
theorem readAlternatives_concat {c : Char} (hc : Text.isBlank c = true) (text : List Char) :
    Clause.readAlternatives (text ++ [c]) = Clause.readAlternatives text := by
  have hbar : (c == '|') = false := by
    rw [beq_eq_false_iff_ne]
    rintro rfl
    exact absurd hc (by decide)
  obtain ⟨front, last, htext, hconcat⟩ := Text.pieces_concat (· == '|') hbar text
  rw [Clause.readAlternatives, Clause.readAlternatives, htext, hconcat]
  simp only [List.map_append, List.map_singleton, Text.words_concat_blank hc]

theorem readAlternatives_rdropWhile (text : List Char) :
    Clause.readAlternatives (text.rdropWhile Text.isBlank) = Clause.readAlternatives text := by
  induction text using List.reverseRecOn with
  | nil => rfl
  | append_singleton text c ih =>
    rw [List.rdropWhile_concat]
    split
    · next hc => rw [ih, readAlternatives_concat hc]
    · rfl

theorem readLeft_of_oneWord (hone : Text.OneWord text) :
    Clause.readLeft text = .ok (String.ofList (Text.trim text)) := by
  rw [Clause.readLeft, Text.words_eq_singleton_iff.2 ⟨hone, rfl⟩]

theorem readLeft_of_empty (hempty : Text.trim text = []) :
    Clause.readLeft text = .error .emptyLeft := by
  rw [Clause.readLeft, Text.trim_eq_nil_iff.1 hempty]

theorem readLeft_of_spaced {c : Char} (hc : c ∈ Text.trim text) (hblank : Text.isBlank c = true) :
    Clause.readLeft text = .error .spacedLeft := by
  unfold Clause.readLeft
  split
  · next hwords =>
    rw [Text.trim_eq_nil_iff.2 hwords] at hc
    exact absurd hc List.not_mem_nil
  · next hwords =>
    have hnoBlank := (Text.words_eq_singleton_iff.1 hwords).1.noBlank c hc
    exact absurd hblank (by simp [hnoBlank])
  · rfl

theorem readHead_of_cutOnce (hcut : CutOnce text before after) :
    Clause.readHead previous text = (Clause.readLeft before).map fun left ↦ (left, after) := by
  simp [Clause.readHead, hcut.cutArrow?, Text.cutArrow?_eq_none_iff.2 hcut.after_free]

/-- The reader stops at a line that has a fault, and tells the fault. -/
theorem readHead_of_headFault (hprevious : previous = none ↔ earlier = [])
    (hfault : line.HeadFault earlier fault) :
    Clause.readHead previous line.text = .error fault := by
  cases hfault with
  | @manyArrows before after hparts harrow =>
    have hsecond : ∃ front back, line.text = front ++ '-' :: '>' :: back ∧
        ¬ Text.HasArrow front ∧ Text.HasArrow back := by
      rw [hparts]
      by_cases hbefore : Text.HasArrow before
      · exact exists_second_arrow hbefore after
      · exact ⟨before, after, rfl, hbefore, harrow⟩
    obtain ⟨front, back, htext, hfront, hback⟩ := hsecond
    have hsome : (Text.cutArrow? back).isSome = true := by
      rwa [Option.isSome_iff_ne_none, Ne, Text.cutArrow?_eq_none_iff, not_not]
    simp [Clause.readHead, htext, Text.cutArrow?_append hfront, hsome]
  | emptyLeft hcut hempty =>
    rw [readHead_of_cutOnce hcut, readLeft_of_empty hempty]
    rfl
  | spacedLeft hcut hc hblank =>
    rw [readHead_of_cutOnce hcut, readLeft_of_spaced hc hblank]
    rfl
  | noLeft hfree hfirst =>
    simp [Clause.readHead, Text.cutArrow?_eq_none_iff.2 hfree, hprevious.2 hfirst]
  | noSeparator hfree hearlier hbar =>
    unfold Clause.readHead
    rw [Text.cutArrow?_eq_none_iff.2 hfree]
    split
    · next hcut => exact nomatch hcut
    · split
      · exact absurd (hprevious.1 rfl) hearlier
      · next rest hrest =>
        have htrim : Text.trim line.text = '|' :: rest.rdropWhile Text.isBlank :=
          Text.trim_eq_cons_iff.2 ⟨rest, hrest, rfl⟩
        exact absurd (by rw [htrim, List.head?_cons]) hbar
      · rfl

/-- The reader takes a line that fits apart into what it says. -/
theorem readHead_of_fits (hprevious : previous = none ↔ earlier = []) (hfits : line.Fits earlier) :
    ∃ entry left text, line.Says entry ∧ entry.left?.or previous = some left ∧
      entry.alternatives = Clause.readAlternatives text ∧
        Clause.readHead previous line.text = .ok (left, text) := by
  rcases cutOnce_or_not_hasArrow hfits.oneArrow with ⟨before, after, hcut⟩ | hfree
  · refine ⟨_, _, after, .rule hcut, rfl, (readAlternatives_eq after).symm, ?_⟩
    rw [readHead_of_cutOnce hcut, readLeft_of_oneWord (hfits.left before after hcut.parts)]
    rfl
  · cases hleft : previous with
    | none => exact absurd (hprevious.1 hleft) (hfits.earlier_ne_nil hfree)
    | some left =>
      obtain ⟨rest, htrim⟩ := List.head?_eq_some_iff.1 (hfits.bar hfree)
      obtain ⟨text, hfront, rfl⟩ := Text.trim_eq_cons_iff.1 htrim
      refine ⟨_, left, text, .continuation hfree htrim, rfl, ?_, ?_⟩
      · rw [← readAlternatives_eq, readAlternatives_rdropWhile]
      · simp [Clause.readHead, Text.cutArrow?_eq_none_iff.2 hfree, hfront]

end Line

end ContextFree.Format
