import ContextFree.Proofs.Format.Lines

/-!
# Reading line after line

The reader carries the last left-hand side from line to line.  Along lines that fit it therefore
gives each entry to the left-hand side above it, and the first line that does not fit ends the
reading with its number and its fault.  Whether a carriage return in front of a line feed counts to
the line makes no difference, since it is a blank.
-/

namespace ContextFree.Format

variable {earlier : List Line} {line : Line} {previous : Option Name} {number : Nat}
  {parts : List (List Char)} {part text : List Char} {fault : LineFault} {c : Char}

/-- The clauses of some entries: an entry without a left-hand side of its own adds to the one that
is carried along. -/
inductive Carries : Option Name → List Entry → List Clause → Prop
  | nil {previous : Option Name} : Carries previous [] []
  | cons {previous : Option Name} {entry : Entry} {left : Name} {entries : List Entry}
    {clauses : List Clause} : entry.left?.or previous = some left →
      Carries (some left) entries clauses →
        Carries previous (entry :: entries)
          (⟨entry.number, left, entry.alternatives⟩ :: clauses)

/-! ## The lines that count -/

theorem numbered_cons_of_blank (hpart : part.all Text.isBlank = true) :
    numbered number (part :: parts) = numbered (number + 1) parts := by
  simp [numbered, List.zipIdx_cons, hpart]

theorem numbered_cons (hpart : ¬ part.all Text.isBlank = true) :
    numbered number (part :: parts) = ⟨number, part⟩ :: numbered (number + 1) parts := by
  simp [numbered, List.zipIdx_cons, hpart]

theorem allFit_nil : AllFit earlier [] :=
  fun _ _ _ hlines ↦ absurd hlines (by simp)

theorem allFit_cons_iff {rest : List Line} :
    AllFit earlier (line :: rest) ↔ line.Fits earlier ∧ AllFit (earlier ++ [line]) rest := by
  constructor
  · intro hfit
    refine ⟨by simpa using hfit [] line rest rfl, fun before other after hrest ↦ ?_⟩
    have hother := hfit (line :: before) other after (by rw [hrest, List.cons_append])
    simpa using hother
  · intro hfit before other after hlines
    cases before with
    | nil =>
      obtain ⟨rfl, rfl⟩ := List.cons.inj hlines
      simpa using hfit.1
    | cons first before =>
      obtain ⟨rfl, rfl⟩ := List.cons.inj hlines
      simpa using hfit.2 before other after rfl

/-- Lines that do not all fit have a first one that does not. -/
theorem exists_first_unfit {lines : List Line} (hunfit : ¬ AllFit earlier lines) :
    ∃ before line after, lines = before ++ line :: after ∧ AllFit earlier before ∧
      ¬ line.Fits (earlier ++ before) := by
  induction lines generalizing earlier with
  | nil => exact absurd allFit_nil hunfit
  | cons first rest ih =>
    by_cases hfirst : first.Fits earlier
    · have hrest : ¬ AllFit (earlier ++ [first]) rest :=
        fun hfit ↦ hunfit (allFit_cons_iff.2 ⟨hfirst, hfit⟩)
      obtain ⟨before, line, after, rfl, hbefore, hline⟩ := ih hrest
      refine ⟨first :: before, line, after, rfl, allFit_cons_iff.2 ⟨hfirst, hbefore⟩, ?_⟩
      simpa using hline
    · exact ⟨[], first, rest, rfl, allFit_nil, by simpa using hfirst⟩

/-! ## All lines -/

/-- Along lines that fit, the reader gives what they say to the left-hand sides above. -/
theorem readLines_of_allFit (hprevious : previous = none ↔ earlier = [])
    (hfit : AllFit earlier (numbered number parts)) : ∃ entries clauses,
      List.Forall₂ Line.Says (numbered number parts) entries ∧ Carries previous entries clauses ∧
        Clause.readLines previous number parts = .ok clauses := by
  -- Of the lines before, the reader knows only whether there are any: then it carries a name.
  induction parts generalizing previous number earlier with
  | nil => exact ⟨[], [], .nil, .nil, rfl⟩
  | cons part parts ih =>
    by_cases hblank : part.all Text.isBlank = true
    · rw [numbered_cons_of_blank hblank] at hfit ⊢
      simpa [Clause.readLines, hblank] using ih hprevious hfit
    · rw [numbered_cons hblank] at hfit ⊢
      obtain ⟨hline, hrest⟩ := allFit_cons_iff.1 hfit
      obtain ⟨entry, left, text, hsaid, hleft, halternatives, hhead⟩ :=
        readHead_of_fits hprevious hline
      have hcarried : some left = none ↔ earlier ++ [⟨number, part⟩] = [] := by simp
      obtain ⟨entries, clauses, hentries, hcarries, hread⟩ := ih hcarried hrest
      refine ⟨entry :: entries, _, .cons hsaid hentries, .cons hleft hcarries, ?_⟩
      simp [Clause.readLines, hblank, hhead, hread, hsaid.number_eq, halternatives, Except.map]

/-- The first line that has a fault ends the reading. -/
theorem readLines_of_headFault {before after : List Line}
    (hprevious : previous = none ↔ earlier = [])
    (hlines : numbered number parts = before ++ line :: after) (hbefore : AllFit earlier before)
    (hfault : line.HeadFault (earlier ++ before) fault) :
    Clause.readLines previous number parts = .error (.badLine line.number fault) := by
  induction parts generalizing previous number earlier before with
  | nil => exact absurd hlines (by simp [numbered])
  | cons part parts ih =>
    by_cases hblank : part.all Text.isBlank = true
    · rw [numbered_cons_of_blank hblank] at hlines
      simpa [Clause.readLines, hblank] using ih hprevious hlines hbefore hfault
    · rw [numbered_cons hblank] at hlines
      cases before with
      | nil =>
        obtain ⟨rfl, -⟩ := List.cons.inj hlines
        rw [List.append_nil] at hfault
        have hhead := readHead_of_headFault hprevious hfault
        simp [Clause.readLines, hblank, hhead]
      | cons first before =>
        obtain ⟨rfl, hrest⟩ := List.cons.inj hlines
        obtain ⟨hfirst, hbefore⟩ := allFit_cons_iff.1 hbefore
        obtain ⟨_, left, text, -, -, -, hhead⟩ := readHead_of_fits hprevious hfirst
        rw [List.append_cons] at hfault
        have hcarried : some left = none ↔ earlier ++ [⟨number, part⟩] = [] := by simp
        have hread := ih hcarried hrest hbefore hfault
        simp [Clause.readLines, hblank, hhead, hread, Except.map]

/-! ## Carriage returns -/

/-- The text is cut at the same place with a blank behind it. -/
theorem cutArrow?_concat (hc : Text.isBlank c = true) (text : List Char) :
    Text.cutArrow? (text ++ [c]) =
      (Text.cutArrow? text).map fun (before, after) ↦ (before, after ++ [c]) := by
  have hpart : c ∉ ['-', '>'] := by
    intro hmember
    simp only [List.mem_cons, List.not_mem_nil, or_false] at hmember
    rcases hmember with rfl | rfl <;> exact absurd hc (by decide)
  cases hcut : Text.cutArrow? text with
  | none =>
    rw [Text.cutArrow?_eq_none_iff] at hcut
    rw [Option.map_none, Text.cutArrow?_eq_none_iff, Text.hasArrow_append_cons_iff hpart]
    exact not_or_intro hcut Text.not_hasArrow_nil
  | some parts =>
    obtain ⟨before, after⟩ := parts
    obtain ⟨rfl, hbefore⟩ := Text.of_cutArrow?_eq_some hcut
    rw [List.append_assoc, List.cons_append, List.cons_append]
    exact Text.cutArrow?_append hbefore (after ++ [c])

/-- A blank behind a line stands behind its alternatives, too. -/
theorem readHead_concat (hc : Text.isBlank c = true) (text : List Char) :
    Clause.readHead previous (text ++ [c]) =
      (Clause.readHead previous text).map fun (left, rest) ↦ (left, rest ++ [c]) := by
  unfold Clause.readHead
  rw [cutArrow?_concat hc]
  cases Text.cutArrow? text with
  | some parts =>
    obtain ⟨before, after⟩ := parts
    simp only [Option.map_some, cutArrow?_concat hc after, Option.isSome_map]
    split
    · rfl
    · cases Clause.readLeft before <;> rfl
  | none =>
    rw [Option.map_none, List.dropWhile_append]
    cases previous with
    | none => rfl
    | some left =>
      cases text.dropWhile Text.isBlank with
      | nil => simp [hc, Except.map]
      | cons d rest =>
        by_cases hd : d = '|'
        · subst hd
          rfl
        · simp [hd, Except.map]

theorem readLines_concat (hc : Text.isBlank c = true) :
    Clause.readLines previous number ((part ++ [c]) :: parts) =
      Clause.readLines previous number (part :: parts) := by
  have hblank : (part ++ [c]).all Text.isBlank = part.all Text.isBlank := by simp [hc]
  unfold Clause.readLines
  rw [hblank, readHead_concat hc]
  split
  · rfl
  · cases Clause.readHead previous part with
    | error fault => rfl
    | ok head => simp [Except.map, readAlternatives_concat hc]

theorem readLines_dropReturn_cons :
    Clause.readLines previous number (dropReturn part :: parts) =
      Clause.readLines previous number (part :: parts) := by
  unfold dropReturn
  split
  · next hlast =>
    obtain ⟨front, rfl⟩ := List.getLast?_eq_some_iff.1 hlast
    rw [List.dropLast_concat, readLines_concat (by decide)]
  · rfl

/-- The lines are read alike with and without the carriage returns in front of line feeds. -/
theorem readLines_map_dropReturn (behind : List (List Char)) :
    Clause.readLines previous number (parts.map dropReturn ++ behind) =
      Clause.readLines previous number (parts ++ behind) := by
  induction parts generalizing previous number with
  | nil => rfl
  | cons part parts ih =>
    rw [List.map_cons, List.cons_append, List.cons_append, readLines_dropReturn_cons]
    simp only [Clause.readLines, ih]

theorem readLines_allLines (text : List Char) :
    Clause.readLines previous number (allLines text) =
      Clause.readLines previous number (Text.pieces (· == '\n') text) := by
  have hne : text.splitOn '\n' ≠ [] := List.splitOnP_ne_nil _ text
  rw [allLines, readLines_map_dropReturn, List.getLast?_eq_some_getLast hne, Option.toList_some,
    List.dropLast_append_getLast, Text.pieces_eq_splitOnP, List.splitOn_eq_splitOnP]

end ContextFree.Format
