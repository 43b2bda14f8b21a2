import ContextFree.Grammar.Rendering
import ContextFree.Proofs.Reading

/-!
# Grammars that plain text keeps

A rule in plain text is a line with an arrow and further lines with a bar each.  Every line is read
back as one alternative, however wide the column before the arrows is, when the names can be written
at their places.  So a grammar comes back from plain text if it has such names, no rule is left out
and the names tell the kinds of the symbols; and whatever is read from text is such a grammar.
-/

namespace ContextFree

namespace ShownRule

variable {width : Nat} {left : Name} {right : List Name} {c : Char}
  {rules : List ShownRule}

/-! ## The names of a production -/

theorem mem_spaced (hc : c ∈ spaced right) (hspace : c ≠ ' ') :
    ∃ name ∈ right, c ∈ name.toList := by
  rcases Text.of_mem_intercalate hc with hsep | ⟨part, hpart, hc⟩
  · exact absurd (List.mem_singleton.1 hsep) hspace
  · obtain ⟨name, hname, rfl⟩ := List.mem_map.1 hpart
    exact ⟨name, hname, hc⟩

theorem words_spaced (hright : ∀ name ∈ right, IsToken name) :
    Text.words (spaced right) = right.map String.toList := by
  apply Text.words_intercalate
  intro part hpart
  obtain ⟨name, hname, rfl⟩ := List.mem_map.1 hpart
  refine ⟨?_, (hright name hname).noBlank⟩
  simpa using (hright name hname).ne_empty

theorem not_hasArrow_spaced (hright : ∀ name ∈ right, IsToken name) :
    ¬ Text.HasArrow (spaced right) := by
  apply Text.not_hasArrow_intercalate
  intro part hpart
  obtain ⟨name, hname, rfl⟩ := List.mem_map.1 hpart
  exact (hright name hname).noArrow

theorem readAlternatives_spaced (hright : ∀ name ∈ right, IsToken name) :
    Clause.readAlternatives (' ' :: spaced right) = [right] := by
  have hnoBar : ∀ c ∈ ' ' :: spaced right, (c == '|') = false := by
    intro c hc
    rw [beq_eq_false_iff_ne]
    intro hbar
    rw [hbar] at hc
    have hbar : '|' ∈ spaced right := (List.mem_cons.1 hc).resolve_left (by decide)
    obtain ⟨name, hname, hc⟩ := mem_spaced hbar (by decide)
    exact (hright name hname).noBar hc
  have hwords : Text.words (' ' :: spaced right) = right.map String.toList := by
    rw [Text.words_blank_cons (by decide), words_spaced hright]
  rw [Clause.readAlternatives, Text.pieces_eq_singleton hnoBar, List.map_singleton, hwords,
    List.map_map]
  simp [Function.comp_def]

/-! ## The head of a line -/

theorem isBlank_of_mem_spaces (hc : c ∈ spaces width) : Text.isBlank c = true := by
  rw [(List.mem_replicate.1 hc).2]
  decide

/-- Spaces in front of a text make no arrow. -/
theorem hasArrow_spaces_append_iff {text : List Char} :
    Text.HasArrow (spaces width ++ text) ↔ Text.HasArrow text := by
  induction width with
  | zero => rfl
  | succ width ih =>
    rw [spaces, List.replicate_succ, List.cons_append, Text.hasArrow_cons_iff (by decide)]
    exact ih

theorem readHead_firstLine (previous : Option Name) (hleft : IsWord left)
    (hright : ∀ name ∈ right, IsToken name) :
    Clause.readHead previous (firstLine width left right) = .ok (left, ' ' :: spaced right) := by
  let before := spaces (width - left.length) ++ left.toList ++ [' ']
  have hline : firstLine width left right = before ++ '-' :: '>' :: (' ' :: spaced right) := by
    simp [firstLine, before]
  have hbefore : ¬ Text.HasArrow before := by
    rw [Text.hasArrow_append_cons_iff (by decide), hasArrow_spaces_append_iff, not_or]
    exact ⟨hleft.noArrow, Text.not_hasArrow_nil⟩
  have hafter : Text.cutArrow? (' ' :: spaced right) = none := by
    rw [Text.cutArrow?_eq_none_iff, Text.hasArrow_cons_iff (by decide)]
    exact not_hasArrow_spaced hright
  have hwords : Text.words before = [left.toList] := by
    have hne : left.toList ≠ [] := by simpa using hleft.ne_empty
    rw [Text.words_append_blank (by decide),
      Text.words_append_of_blank (fun c ↦ isBlank_of_mem_spaces),
      Text.words_eq_singleton hne hleft.noBlank]
    rfl
  simp [Clause.readHead, hline, Text.cutArrow?_append hbefore, hafter, Clause.readLeft, hwords,
    Except.map]

theorem readHead_furtherLine (hright : ∀ name ∈ right, IsToken name) :
    Clause.readHead (some left) (furtherLine width right) = .ok (left, ' ' :: spaced right) := by
  have hline : furtherLine width right = spaces (width + 2) ++ '|' :: ' ' :: spaced right := by
    simp [furtherLine, spaces, List.replicate_succ']
  have harrow : Text.cutArrow? (furtherLine width right) = none := by
    rw [Text.cutArrow?_eq_none_iff, hline, hasArrow_spaces_append_iff,
      Text.hasArrow_cons_iff (by decide), Text.hasArrow_cons_iff (by decide)]
    exact not_hasArrow_spaced hright
  have hbar : (furtherLine width right).dropWhile Text.isBlank = '|' :: ' ' :: spaced right := by
    rw [hline, List.dropWhile_append_of_pos fun c ↦ isBlank_of_mem_spaces]
    rfl
  simp [Clause.readHead, harrow, hbar]

/-! ## Rules -/

/-- A rule that can be written: it has something to write, and names for their places. -/
structure Writable (rule : ShownRule) : Prop where
  left : IsWord rule.left
  rights_ne_nil : rule.rights ≠ []
  tokens : ∀ right ∈ rule.rights, ∀ token ∈ right, IsToken token

/-- The left-hand side with each of the alternatives. -/
def entries (rule : ShownRule) : List (Name × List Name) :=
  rule.rights.map fun right ↦ (rule.left, right)

theorem newline_notMem_spaced (hright : ∀ name ∈ right, IsToken name) : '\n' ∉ spaced right := by
  intro hnewline
  obtain ⟨name, hname, hc⟩ := mem_spaced hnewline (by decide)
  exact (hright name hname).newline_notMem hc

theorem newline_notMem_plainLines {rule : ShownRule} (hrule : rule.Writable) :
    ∀ line ∈ rule.plainLines width, '\n' ∉ line := by
  obtain ⟨left, rights⟩ := rule
  cases rights with
  | nil => exact absurd rfl hrule.rights_ne_nil
  | cons right rights =>
    obtain ⟨hright, hrights⟩ := List.forall_mem_cons.1 hrule.tokens
    have hspaces : ∀ n, '\n' ∉ spaces n := fun n hnewline ↦
      absurd (List.mem_replicate.1 hnewline).2 (by decide)
    intro line hline
    rcases List.mem_cons.1 hline with rfl | hfurther
    · simp [firstLine, hspaces, hrule.left.newline_notMem, newline_notMem_spaced hright]
    · obtain ⟨further, hmember, rfl⟩ := List.mem_map.1 hfurther
      simp [furtherLine, hspaces, newline_notMem_spaced (hrights further hmember)]

theorem fst_of_mem_entries {rule : ShownRule} {entry : Name × List Name}
    (hentry : entry ∈ rule.entries) : entry.1 = rule.left := by
  obtain ⟨right, -, rfl⟩ := List.mem_map.1 hentry
  rfl

theorem fst_mem_of_mem_entries {entry : Name × List Name}
    (hentry : entry ∈ rules.flatMap entries) : entry.1 ∈ rules.map ShownRule.left := by
  obtain ⟨rule, hrule, hentry⟩ := List.mem_flatMap.1 hentry
  rw [fst_of_mem_entries hentry]
  exact List.mem_map_of_mem hrule

/-- The left-hand sides of the entries are those of the rules, once each. -/
theorem eraseDups_entries (hdistinct : (rules.map ShownRule.left).Nodup)
    (hrules : ∀ rule ∈ rules, rule.rights ≠ []) :
    ((rules.flatMap entries).map Prod.fst).eraseDups = rules.map ShownRule.left := by
  induction rules with
  | nil => rfl
  | cons rule rules ih =>
    obtain ⟨left, rights⟩ := rule
    obtain ⟨hrule, hlater⟩ := List.forall_mem_cons.1 hrules
    rw [List.map_cons, List.nodup_cons] at hdistinct
    cases rights with
    | nil => exact absurd rfl hrule
    | cons right rights =>
      have hown : (rights.map fun _ ↦ left).filter (fun b ↦ !b == left) = [] := by
        simp
      have hothers : ((rules.flatMap entries).map Prod.fst).filter (fun b ↦ !b == left) =
          (rules.flatMap entries).map Prod.fst := by
        apply List.filter_eq_self.2
        intro n hn
        obtain ⟨entry, hentry, rfl⟩ := List.mem_map.1 hn
        have hne : entry.1 ≠ left := fun hsame ↦ hdistinct.1 (hsame ▸ fst_mem_of_mem_entries hentry)
        simpa using hne
      have hentries : ((⟨left, right :: rights⟩ :: rules).flatMap entries).map Prod.fst =
          left :: ((rights.map fun _ ↦ left) ++ (rules.flatMap entries).map Prod.fst) := by
        simp [entries, Function.comp_def]
      rw [hentries, List.eraseDups_cons, List.filter_append, hown, hothers, List.nil_append,
        ih hdistinct.2 hlater, List.map_cons]

/-- The entries with the left-hand side of a rule are those of the rule. -/
theorem filter_entries {rule : ShownRule} (hdistinct : (rules.map ShownRule.left).Nodup)
    (hrule : rule ∈ rules) :
    (rules.flatMap entries).filter (·.1 = rule.left) = rule.entries := by
  induction rules with
  | nil => exact absurd hrule List.not_mem_nil
  | cons first rules ih =>
    rw [List.map_cons, List.nodup_cons] at hdistinct
    rw [List.flatMap_cons, List.filter_append]
    rcases List.mem_cons.1 hrule with rfl | hlater
    · have hown : rule.entries.filter (·.1 = rule.left) = rule.entries :=
        List.filter_eq_self.2 fun entry hentry ↦ by simp [fst_of_mem_entries hentry]
      have hothers : (rules.flatMap entries).filter (·.1 = rule.left) = [] := by
        apply List.filter_eq_nil_iff.2
        intro entry hentry hsame
        exact hdistinct.1 (of_decide_eq_true hsame ▸ fst_mem_of_mem_entries hentry)
      rw [hown, hothers, List.append_nil]
    · have hne : first.left ≠ rule.left := fun hsame ↦
        hdistinct.1 (hsame ▸ List.mem_map_of_mem hlater)
      have hfirst : first.entries.filter (·.1 = rule.left) = [] :=
        List.filter_eq_nil_iff.2 fun entry hentry ↦ by simpa [fst_of_mem_entries hentry] using hne
      rw [hfirst, ih hdistinct.2 hlater, List.nil_append]

end ShownRule

/-! ## Lines -/

namespace Clause

variable {previous : Option Name} {number width : Nat} {left : Name} {right : List Name}
  {line text : List Char} {lines : List (List Char)} {entries : List (Name × List Name)}

/-- One clause for each left-hand side and alternative, in lines that follow each other. -/
def ofEntries (number : Nat) : List (Name × List Name) → List Clause
  | [] => []
  | (left, right) :: entries => ⟨number, left, [right]⟩ :: ofEntries (number + 1) entries

theorem readLines_cons (hline : ∃ c ∈ line, Text.isBlank c = false)
    (hhead : readHead previous line = .ok (left, text))
    (halternatives : readAlternatives text = [right])
    (hrest : readLines (some left) (number + 1) lines = .ok (ofEntries (number + 1) entries)) :
    readLines previous number (line :: lines) =
      .ok (ofEntries number ((left, right) :: entries)) := by
  have hshown : line.all Text.isBlank = false := by
    simpa [List.all_eq_false] using hline
  simp [readLines, hshown, hhead, halternatives, hrest, ofEntries, Except.map]

/-- The lines of further productions add to the left-hand side before them. -/
theorem readLines_further {rights : List (List Name)}
    (hrights : ∀ right ∈ rights, ∀ token ∈ right, IsToken token)
    (hrest : ∀ number, readLines (some left) number lines = .ok (ofEntries number entries)) :
    readLines (some left) number (rights.map (ShownRule.furtherLine width) ++ lines) =
      .ok (ofEntries number (rights.map (fun right ↦ (left, right)) ++ entries)) := by
  induction rights generalizing number with
  | nil => exact hrest number
  | cons right rights ih =>
    obtain ⟨hright, hrights⟩ := List.forall_mem_cons.1 hrights
    have hbar : ∃ c ∈ ShownRule.furtherLine width right, Text.isBlank c = false :=
      ⟨'|', by simp [ShownRule.furtherLine], by decide⟩
    have hhead : readHead (some left) (ShownRule.furtherLine width right) =
        .ok (left, ' ' :: ShownRule.spaced right) := ShownRule.readHead_furtherLine hright
    exact readLines_cons hbar hhead (ShownRule.readAlternatives_spaced hright) (ih hrights)

/-- The lines of rules are read back, whatever the width of the column is. -/
theorem readLines_plainLines {rules : List ShownRule} (hrules : ∀ rule ∈ rules, rule.Writable) :
    readLines previous number (rules.flatMap (·.plainLines width)) =
      .ok (ofEntries number (rules.flatMap ShownRule.entries)) := by
  -- A first line names its left-hand side, so it does not matter which one stood before it.
  induction rules generalizing previous number with
  | nil => rfl
  | cons rule rules ih =>
    obtain ⟨left, rights⟩ := rule
    obtain ⟨hrule, hlater⟩ := List.forall_mem_cons.1 hrules
    cases rights with
    | nil => exact absurd rfl hrule.rights_ne_nil
    | cons right rights =>
      obtain ⟨hright, hrights⟩ := List.forall_mem_cons.1 hrule.tokens
      have harrow : ∃ c ∈ ShownRule.firstLine width left right, Text.isBlank c = false :=
        ⟨'-', by simp [ShownRule.firstLine], by decide⟩
      have hhead : readHead previous (ShownRule.firstLine width left right) =
          .ok (left, ' ' :: ShownRule.spaced right) :=
        ShownRule.readHead_firstLine previous hrule.left hright
      exact readLines_cons harrow hhead (ShownRule.readAlternatives_spaced hright)
        (readLines_further hrights fun number ↦ ih hlater)

theorem readLines_pieces_intercalate (hlines : ∀ line ∈ lines, '\n' ∉ line) :
    readLines previous 1 (Text.pieces (· == '\n') (List.intercalate ['\n'] lines)) =
      readLines previous 1 lines := by
  cases lines with
  | nil => rfl
  | cons line lines =>
    rw [Text.pieces_intercalate (by decide) (List.cons_ne_nil line lines)]
    intro part hpart c hc
    rw [beq_eq_false_iff_ne]
    exact fun hnewline ↦ hlines part hpart (hnewline ▸ hc)

@[simp]
theorem map_left_ofEntries (number : Nat) (entries : List (Name × List Name)) :
    (ofEntries number entries).map Clause.left = entries.map Prod.fst := by
  induction entries generalizing number with
  | nil => rfl
  | cons entry entries ih => simp [ofEntries, ih]

theorem mem_alternatives_ofEntries {clause : Clause} {alternative : List Name}
    (hclause : clause ∈ ofEntries number entries)
    (halternative : alternative ∈ clause.alternatives) : (clause.left, alternative) ∈ entries := by
  induction entries generalizing number with
  | nil => exact absurd hclause List.not_mem_nil
  | cons entry entries ih =>
    rcases List.mem_cons.1 hclause with rfl | hlater
    · rw [List.mem_singleton.1 halternative]
      exact List.mem_cons_self
    · exact List.mem_cons_of_mem entry (ih hlater)

/-- The alternatives of a left-hand side. -/
theorem flatMap_alternatives_ofEntries (name : Name) (f : List Name → Production) :
    ((ofEntries number entries).filter (·.left = name)).flatMap (·.alternatives.map f) =
      (entries.filter (·.1 = name)).map fun entry ↦ f entry.2 := by
  induction entries generalizing number with
  | nil => rfl
  | cons entry entries ih =>
    by_cases hname : entry.1 = name
    · simp [ofEntries, hname, ih]
    · simp [ofEntries, hname, ih]

end Clause

namespace Grammar

variable {g : Grammar} {text : String}

/-- A grammar that plain text can hold: nothing is left out, every name can be written at its
places, and the names tell the kinds. -/
structure PlainlyWritable (g : Grammar) : Prop where
  valid : g.validate = .ok ()
  productions_ne_nil : ∀ n ∈ g.names, g.productionsOf n ≠ []
  isWord : ∀ n ∈ g.names, IsWord n
  isToken : ∀ s, g.HasSymbol s → IsToken s.name
  namesTellKinds : g.NamesTellKinds

theorem shown_eq_map (g : Grammar) :
    g.shown = g.names.map fun n ↦ ⟨n, (g.productionsOf n).map (·.map Symbol.name)⟩ := by
  rw [shown, rules_eq_map, List.map_map]
  rfl

theorem map_left_shown (g : Grammar) : g.shown.map ShownRule.left = g.names := by
  simp [shown_eq_map, Function.comp_def]

namespace PlainlyWritable

theorem writable_of_mem_shown (hg : g.PlainlyWritable) : ∀ rule ∈ g.shown, rule.Writable := by
  rw [shown_eq_map]
  intro rule hrule
  obtain ⟨n, hn, rfl⟩ := List.mem_map.1 hrule
  refine ⟨hg.isWord n hn, ?_, fun right hright token htoken ↦ ?_⟩
  · simpa using hg.productions_ne_nil n hn
  · obtain ⟨p, hp, rfl⟩ := List.mem_map.1 hright
    obtain ⟨s, hs, rfl⟩ := List.mem_map.1 htoken
    exact hg.isToken s ⟨n, p, hp, hs⟩

/-- The lines of the plain text are read back as the alternatives of the rules. -/
theorem readLines_plaintext (hg : g.PlainlyWritable) :
    Clause.readLines none 1 (Text.pieces (· == '\n') g.plaintext.toList) =
      .ok (Clause.ofEntries 1 (g.shown.flatMap ShownRule.entries)) := by
  have hwritable := hg.writable_of_mem_shown
  have hall : g.shown.filter (·.rights ≠ []) = g.shown :=
    List.filter_eq_self.2 fun rule hrule ↦ by simpa using (hwritable rule hrule).rights_ne_nil
  rw [plaintext, hall, String.toList_ofList, Clause.readLines_pieces_intercalate]
  · exact Clause.readLines_plainLines hwritable
  · intro line hline
    obtain ⟨rule, hrule, hline⟩ := List.mem_flatMap.1 hline
    exact ShownRule.newline_notMem_plainLines (hwritable rule hrule) line hline

theorem nil_notMem_alternatives (hg : g.PlainlyWritable) :
    ∀ clause ∈ Clause.ofEntries 1 (g.shown.flatMap ShownRule.entries),
      [] ∉ clause.alternatives := by
  intro clause hclause hnil
  obtain ⟨rule, hrule, hentry⟩ :=
    List.mem_flatMap.1 (Clause.mem_alternatives_ofEntries hclause hnil)
  rw [shown_eq_map] at hrule
  obtain ⟨n, -, rfl⟩ := List.mem_map.1 hrule
  obtain ⟨right, hright, hsame⟩ := List.mem_map.1 hentry
  obtain ⟨p, hp, rfl⟩ := List.mem_map.1 hright
  have hp_nil : p = [] := List.map_eq_nil_iff.1 (Prod.mk.inj hsame).2
  exact ((validate_eq_ok_iff.1 hg.valid).wellFormed hp).ne_nil hp_nil

theorem ofClauses_shown (hg : g.PlainlyWritable) :
    ofClauses (Clause.ofEntries 1 (g.shown.flatMap ShownRule.entries)) = g := by
  have hdistinct : (g.shown.map ShownRule.left).Nodup := by
    rw [map_left_shown]
    exact g.names_nodup
  have hdeclared : ((g.shown.flatMap ShownRule.entries).map Prod.fst).eraseDups = g.names := by
    rw [← map_left_shown]
    exact ShownRule.eraseDups_entries hdistinct
      fun rule hrule ↦ (hg.writable_of_mem_shown rule hrule).rights_ne_nil
  have hsymbols := (namesTellKinds_iff (validate_eq_ok_iff.1 hg.valid)).1 hg.namesTellKinds
  -- The declared names are found again in their order, and then the productions of each.
  rw [ofClauses, ofNames_eq_iff, Clause.map_left_ofEntries]
  refine ⟨hdeclared, fun n hn ↦ ?_⟩
  let rule : ShownRule := ⟨n, (g.productionsOf n).map (·.map Symbol.name)⟩
  have hrule : rule ∈ g.shown := by
    rw [shown_eq_map]
    exact List.mem_map_of_mem hn
  have hentries : (g.shown.flatMap ShownRule.entries).filter (·.1 = n) = rule.entries :=
    ShownRule.filter_entries hdistinct hrule
  rw [Clause.flatMap_alternatives_ofEntries, hentries, ShownRule.entries, List.map_map]
  refine map_ofToken_map_name_eq_iff.2 fun p hp s hs ↦ ?_
  rw [← Symbol.ofToken_eraseDups, hdeclared]
  exact hsymbols s ⟨n, p, hp, hs⟩

end PlainlyWritable

/-- Whatever is read from text can be written as plain text. -/
theorem plainlyWritable_of_ofText (hread : ofText text = .ok g) : g.PlainlyWritable := by
  obtain ⟨hvalid, hkinds⟩ := namesTellKinds_ofText hread
  obtain ⟨clauses, hlines, -, rfl, -⟩ := ofText_eq_ok_iff.1 hread
  have hclauses : ∀ clause ∈ clauses, clause.Writable :=
    Clause.writable_of_readLines hlines
      fun name hsome ↦ absurd hsome (Option.some_ne_none name).symm
  have hleft : ∀ n ∈ (ofClauses clauses).names, ∃ clause ∈ clauses, clause.left = n := by
    intro n hn
    rwa [ofClauses, names_ofNames, List.mem_eraseDups, List.mem_map] at hn
  refine ⟨validate_eq_ok_iff.2 hvalid, fun n hn hnone ↦ ?_, fun n hn ↦ ?_, ?_, hkinds⟩
  · obtain ⟨clause, hclause, hname⟩ := hleft n hn
    obtain ⟨alternative, halternative⟩ :=
      List.exists_mem_of_ne_nil _ (hclauses clause hclause).alternatives_ne_nil
    have hp := mem_productionsOf_ofClauses.2
      ⟨clause, hclause, hname, alternative, halternative, rfl⟩
    rw [hnone] at hp
    exact absurd hp List.not_mem_nil
  · obtain ⟨clause, hclause, rfl⟩ := hleft n hn
    exact (hclauses clause hclause).left
  · intro s hs
    obtain ⟨n, p, hp, hs⟩ := hs
    obtain ⟨clause, hclause, -, alternative, halternative, rfl⟩ := mem_productionsOf_ofClauses.1 hp
    obtain ⟨token, htoken, rfl⟩ := List.mem_map.1 hs
    have htoken := (hclauses clause hclause).tokens alternative halternative token htoken
    exact isToken_name_ofToken htoken

theorem ofText_plaintext (hg : g.PlainlyWritable) : ofText g.plaintext = .ok g :=
  ofText_eq_ok_iff.2 ⟨_, hg.readLines_plaintext, hg.nil_notMem_alternatives, hg.ofClauses_shown,
    validate_eq_ok_iff.1 hg.valid⟩

/-- A grammar with names that can be written comes back from plain text, with its rules and
productions in order; and whatever is read from text is such a grammar. -/
theorem plaintext_roundTrip :
    (∀ g : Grammar, g.PlainlyWritable → ofText g.plaintext = .ok g) ∧
      (∀ (text : String) (g : Grammar), ofText text = .ok g →
        g.PlainlyWritable ∧ ofText g.plaintext = .ok g) := by
  refine ⟨fun g hg ↦ ofText_plaintext hg, fun text g hread ↦ ?_⟩
  have hg := plainlyWritable_of_ofText hread
  exact ⟨hg, ofText_plaintext hg⟩

/-- A grammar with names that are nearly separators. -/
def hyphenated : Grammar where
  rules := [("-", [[.terminal ">", .nonTerminal "-"], [.epsilon]]), ("|A", [[.nonTerminal "-"]]),
    ("λ", [[.terminal "a-", .terminal ">"]])]

theorem plaintext_roundTrip_hyphenated :
    ofText "- -> > - | λ\n|A -> -\nλ -> a- >" = .ok hyphenated ∧ hyphenated.PlainlyWritable ∧
      hyphenated.plaintext = " - -> > -\n    | λ\n|A -> -\n λ -> a- >" ∧
      ofText hyphenated.plaintext = .ok hyphenated := by
  have hread : ofText "- -> > - | λ\n|A -> -\nλ -> a- >" = .ok hyphenated := by rfl
  have hwritable := (plaintext_roundTrip.2 _ hyphenated hread).1
  exact ⟨hread, hwritable, by rfl, plaintext_roundTrip.1 hyphenated hwritable⟩

end Grammar

end ContextFree
