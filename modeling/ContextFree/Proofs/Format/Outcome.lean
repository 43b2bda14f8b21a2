import ContextFree.Proofs.Format.Grammar

/-!
# What becomes of a text

A text is read exactly when its lines fit, its alternatives have tokens and its epsilons stand
alone, and then it is the grammar that the lines write.  Every other text is refused for the first
thing that is wrong with it: the lines are looked through for one that does not fit, then for one
with an empty alternative, and last the names for one with an epsilon beside other tokens.
-/

namespace ContextFree

namespace Format

/-- Every alternative on the line has a token. -/
def Line.Filled (line : Line) : Prop :=
  ∀ entry, line.Says entry → [] ∉ entry.alternatives

/-- No alternative on the line has an epsilon beside other tokens. -/
def Line.EpsilonAlone (line : Line) : Prop :=
  ∀ entry, line.Says entry → ∀ alternative ∈ entry.alternatives, Format.EpsilonAlone alternative

/-- The text has the format of a written grammar. -/
structure WellWritten (text : String) : Prop where
  fit : AllFit [] (lines text)
  filled : ∀ line ∈ lines text, line.Filled
  epsilonAlone : ∀ line ∈ lines text, line.EpsilonAlone

/-- The first thing that is wrong with a text. -/
inductive Refused (text : String) : GrammarError → Prop
  | badHead {earlier later : List Line} {line : Line} {fault : LineFault} :
    lines text = earlier ++ line :: later → AllFit [] earlier → ¬ line.Fits earlier →
      line.HeadFault earlier fault → Refused text (.badLine line.number fault)
  | emptyAlternative {earlier later : List Line} {line : Line} :
    AllFit [] (lines text) → lines text = earlier ++ line :: later →
      (∀ before ∈ earlier, before.Filled) → ¬ line.Filled →
        Refused text (.badLine line.number .emptyAlternative)
  | epsilonNotAlone {entries : List Entry} {n : Name} :
    AllFit [] (lines text) → (∀ line ∈ lines text, line.Filled) →
      List.Forall₂ Line.Says (lines text) entries →
        Grammar.First (lefts entries).eraseDups
          (fun n ↦ ∃ alternative ∈ alternativesOf entries n, ¬ EpsilonAlone alternative) n →
          Refused text (.malformed n .epsilonNotAlone)

variable {entries other : List Entry} {text : String} {error : GrammarError}

/-! ## Lines and entries -/

/-- Lines say one list of entries at most. -/
theorem forall₂_says_unique {lines : List Line} (hentries : List.Forall₂ Line.Says lines entries)
    (hother : List.Forall₂ Line.Says lines other) : entries = other :=
  List.right_unique_forall₂' (fun _ _ _ hfirst hsecond ↦ hfirst.unique hsecond) hentries hother

/-- What holds of all that the lines say holds of the entries. -/
theorem forall_says_iff {lines : List Line} {holds : Entry → Prop}
    (hsaid : List.Forall₂ Line.Says lines entries) :
    (∀ line ∈ lines, ∀ entry, line.Says entry → holds entry) ↔ ∀ entry ∈ entries, holds entry := by
  induction hsaid with
  | nil => simp
  | cons hline _ ih => rw [List.forall_mem_cons, List.forall_mem_cons, ih, hline.forall_iff]

/-- The search for an empty alternative stops at the first line that is not filled. -/
theorem findSome?_of_first_unfilled {earlier later : List Line} {line : Line}
    (hsaid : List.Forall₂ Line.Says (earlier ++ line :: later) entries)
    (hearlier : ∀ before ∈ earlier, before.Filled) (hline : ¬ line.Filled) :
    (entries.findSome? fun entry ↦
      if entry.alternatives.contains [] then
        some (GrammarError.badLine entry.number .emptyAlternative) else none) =
      some (.badLine line.number .emptyAlternative) := by
  induction earlier generalizing entries with
  | nil =>
    cases hsaid with
    | @cons _ entry _ _ hentry _ =>
      have hempty : [] ∈ entry.alternatives := by
        simpa [Line.Filled, hentry.forall_iff] using hline
      simp [hempty, hentry.number_eq]
  | cons before earlier ih =>
    cases hsaid with
    | cons hentry hrest =>
      obtain ⟨hbefore, hearlier⟩ := List.forall_mem_cons.1 hearlier
      have hfilled := hentry.forall_iff.1 hbefore
      rw [List.findSome?_cons, ih hrest hearlier]
      simp [hfilled]

/-- Lines that are not all filled have a first one that is not. -/
theorem exists_first_unfilled {lines : List Line} (hunfilled : ¬ ∀ line ∈ lines, line.Filled) :
    ∃ earlier line later, lines = earlier ++ line :: later ∧
      (∀ before ∈ earlier, before.Filled) ∧ ¬ line.Filled := by
  classical
  cases hfirst : lines.find? (¬ ·.Filled) with
  | none => exact absurd (by simpa using List.find?_eq_none.1 hfirst) hunfilled
  | some line =>
    obtain ⟨hline, earlier, later, hlines, hearlier⟩ := List.find?_eq_some_iff_append.1 hfirst
    exact ⟨earlier, line, later, hlines, by simpa using hearlier, by simpa using hline⟩

/-! ## Outcomes -/

/-- A text whose lines fit is read into clauses. -/
theorem exists_clauses_of_allFit (hfit : AllFit [] (lines text)) : ∃ entries clauses,
    List.Forall₂ Line.Says (lines text) entries ∧ Carries none entries clauses ∧
      Clause.readLines none 1 (Text.pieces (· == '\n') text.toList) = .ok clauses := by
  obtain ⟨entries, clauses, hsaid, hcarries, hread⟩ :=
    readLines_of_allFit (iff_of_true rfl rfl) hfit
  exact ⟨entries, clauses, hsaid, hcarries, (readLines_allLines _).symm.trans hread⟩

/-- The grammar that the lines write is left to be validated once all alternatives have tokens. -/
theorem exists_clauses_of_filled (hfit : AllFit [] (lines text))
    (hfilled : ∀ line ∈ lines text, line.Filled) : ∃ entries clauses,
      List.Forall₂ Line.Says (lines text) entries ∧ Carries none entries clauses ∧
        (∀ n, [] ∉ alternativesOf entries n) ∧ Grammar.ofText text =
          (Grammar.ofClauses clauses).validate >>= fun _ ↦ pure (Grammar.ofClauses clauses) := by
  obtain ⟨entries, clauses, hsaid, hcarries, hread⟩ := exists_clauses_of_allFit hfit
  have hentries : ∀ entry ∈ entries, [] ∉ entry.alternatives := (forall_says_iff hsaid).1 hfilled
  have hnone : clauses.findSome? Clause.emptyAlternative? = none := by
    rw [hcarries.findSome?_emptyAlternative?]
    simpa using hentries
  refine ⟨entries, clauses, hsaid, hcarries, fun n hempty ↦ ?_, ?_⟩
  · obtain ⟨entry, hentry, hempty⟩ := hcarries.exists_mem_alternativesOf_iff.1 ⟨n, hempty⟩
    exact hentries entry hentry hempty
  · rw [Grammar.ofText, hread]
    simp only [bind, Except.bind, hnone]

/-- A refused text is not read. -/
theorem Refused.ofText_eq (hrefused : Refused text error) : Grammar.ofText text = .error error := by
  cases hrefused with
  | badHead hlines hearlier _ hfault =>
    have hread := readLines_of_headFault (iff_of_true rfl rfl) hlines hearlier hfault
    rw [readLines_allLines] at hread
    rw [Grammar.ofText, hread]
    rfl
  | emptyAlternative hfit hlines hearlier hline =>
    obtain ⟨entries, clauses, hsaid, hcarries, hread⟩ := exists_clauses_of_allFit hfit
    rw [hlines] at hsaid
    have hfound := findSome?_of_first_unfilled hsaid hearlier hline
    rw [← hcarries.findSome?_emptyAlternative?] at hfound
    rw [Grammar.ofText, hread]
    simp only [bind, Except.bind, hfound]
  | epsilonNotAlone hfit hfilled hsaid hfirst =>
    obtain ⟨entries, clauses, hsaid', hcarries, hnames, hread⟩ :=
      exists_clauses_of_filled hfit hfilled
    obtain rfl := forall₂_says_unique hsaid hsaid'
    have hvalidate := (hcarries.writes_ofClauses.validate_eq_error_iff hnames).2 ⟨_, hfirst, rfl⟩
    rw [hread, hvalidate]
    rfl

/-- The grammar that a well-written text writes is read from it. -/
theorem WellWritten.exists_ofText_eq (hwell : WellWritten text) : ∃ entries g,
    List.Forall₂ Line.Says (lines text) entries ∧ Writes entries g ∧
      Grammar.ofText text = .ok g := by
  obtain ⟨entries, clauses, hsaid, hcarries, hnames, hread⟩ :=
    exists_clauses_of_filled hwell.fit hwell.filled
  have hwrites := hcarries.writes_ofClauses
  refine ⟨entries, _, hsaid, hwrites, ?_⟩
  rw [hread]
  cases hvalidate : (Grammar.ofClauses clauses).validate with
  | ok _ => rfl
  | error error =>
    obtain ⟨n, ⟨_, _, _, ⟨alternative, halternative, hmixed⟩, _⟩, _⟩ :=
      (hwrites.validate_eq_error_iff hnames).1 hvalidate
    obtain ⟨entry, hentry, halternative⟩ :=
      hcarries.exists_mem_alternativesOf_iff.1 ⟨n, halternative⟩
    have halone := (forall_says_iff hsaid).1 hwell.epsilonAlone entry hentry
    exact absurd (halone alternative halternative) hmixed

/-- A text is well written, or something is wrong with it. -/
theorem wellWritten_or_refused (text : String) :
    WellWritten text ∨ ∃ error, Refused text error := by
  -- The cases are split in the order in which the reader looks for something wrong.
  by_cases hfit : AllFit [] (lines text)
  · by_cases hfilled : ∀ line ∈ lines text, line.Filled
    · obtain ⟨entries, clauses, hsaid, hcarries, hnames, hread⟩ :=
        exists_clauses_of_filled hfit hfilled
      have hwrites := hcarries.writes_ofClauses
      cases hvalidate : (Grammar.ofClauses clauses).validate with
      | ok _ =>
        have hvalid := Grammar.validate_eq_ok_iff.1 hvalidate
        refine .inl ⟨hfit, hfilled, (forall_says_iff hsaid).2 fun entry hentry ↦ ?_⟩
        intro alternative halternative
        obtain ⟨n, hmember⟩ :=
          hcarries.exists_mem_alternativesOf_iff.2 ⟨entry, hentry, halternative⟩
        exact hwrites.epsilonAlone hvalid hmember fun hempty ↦ hnames n (hempty ▸ hmember)
      | error error =>
        obtain ⟨n, hfirst, rfl⟩ := (hwrites.validate_eq_error_iff hnames).1 hvalidate
        exact .inr ⟨_, .epsilonNotAlone hfit hfilled hsaid hfirst⟩
    · obtain ⟨earlier, line, later, hlines, hearlier, hline⟩ := exists_first_unfilled hfilled
      exact .inr ⟨_, .emptyAlternative hfit hlines hearlier hline⟩
  · obtain ⟨earlier, line, later, hlines, hearlier, hline⟩ := exists_first_unfit hfit
    obtain ⟨fault, hfault⟩ := exists_headFault hline
    exact .inr ⟨_, .badHead hlines hearlier hline hfault⟩

end Format

namespace Grammar

open Format

/-- A text is read exactly when it is well written, and then it is the grammar that its lines write;
any other text is refused for the first thing that is wrong with it. -/
theorem ofText_outcome (text : String) :
    ((∃ g, ofText text = .ok g) ↔ WellWritten text) ∧
      (∀ g, ofText text = .ok g ↔ WellWritten text ∧
        ∃ entries, List.Forall₂ Line.Says (lines text) entries ∧ Writes entries g) ∧
      ∀ error, ofText text = .error error ↔ Refused text error := by
  have hwell : ∀ g, ofText text = .ok g → WellWritten text := by
    intro g hread
    rcases wellWritten_or_refused text with hwell | ⟨error, hrefused⟩
    · exact hwell
    · exact nomatch hrefused.ofText_eq.symm.trans hread
  refine ⟨⟨fun ⟨g, hread⟩ ↦ hwell g hread, fun htext ↦ ?_⟩, fun g ↦ ⟨fun hread ↦ ?_, ?_⟩,
    fun error ↦ ⟨fun hread ↦ ?_, Refused.ofText_eq⟩⟩
  · obtain ⟨_, g, -, -, hread⟩ := htext.exists_ofText_eq
    exact ⟨g, hread⟩
  · obtain ⟨entries, h, hsaid, hwrites, hread'⟩ := (hwell g hread).exists_ofText_eq
    obtain rfl := Except.ok.inj (hread.symm.trans hread')
    exact ⟨hwell g hread, entries, hsaid, hwrites⟩
  · intro hwritten
    obtain ⟨htext, entries, hsaid, hwrites⟩ := hwritten
    obtain ⟨entries', h, hsaid', hwrites', hread⟩ := htext.exists_ofText_eq
    obtain rfl := forall₂_says_unique hsaid hsaid'
    rw [hread, hwrites.unique hwrites']
  · rcases wellWritten_or_refused text with htext | ⟨first, hrefused⟩
    · obtain ⟨_, g, -, -, hread'⟩ := htext.exists_ofText_eq
      exact nomatch hread'.symm.trans hread
    · obtain rfl := Except.error.inj (hread.symm.trans hrefused.ofText_eq)
      exact hrefused

/-- Blank lines do not part a continuation from its left-hand side, and a left-hand side may be
opened again. -/
example : ofText "S -> A b\n\n | λ\r\nA -> a | S\nS->c" = .ok {
    rules := [
      ("S", [[.nonTerminal "A", .terminal "b"], [.epsilon], [.terminal "c"]]),
      ("A", [[.terminal "a"], [.nonTerminal "S"]])] } := by
  rfl

end Grammar

end ContextFree
