import ContextFree.Grammar.Reading
import ContextFree.Proofs.SymbolKinds
import ContextFree.Proofs.Text.Split

/-!
# What is read from text

Whatever the text is, the clauses that are read from it hold names that could be written at their
places again: left-hand sides of one word without an arrow, and tokens that have neither an arrow
nor a bar in them.  So a grammar that is read from text has such names, and its names tell the kinds
of its symbols.
-/

namespace ContextFree

/-- A name that can be written as a left-hand side: one word without an arrow. -/
structure IsWord (name : Name) : Prop where
  ne_empty : name ≠ ""
  noBlank : ∀ c ∈ name.toList, Text.isBlank c = false
  noArrow : ¬ Text.HasArrow name.toList

/-- A name that can be written among the alternatives. -/
structure IsToken (name : Name) : Prop extends IsWord name where
  noBar : '|' ∉ name.toList

theorem isToken_epsilonName : IsToken epsilonName where
  ne_empty := by decide
  noBlank c hc := by
    have hlambda : c = 'λ' := List.mem_singleton.1 hc
    rw [hlambda]
    decide
  noArrow := by
    rw [← Text.cutArrow?_eq_none_iff]
    decide
  noBar := by decide

/-- What a token stands for has a name that can be written in its place. -/
theorem isToken_name_ofToken {declared : List Name} {token : Name} (htoken : IsToken token) :
    IsToken (Symbol.ofToken declared token).name := by
  unfold Symbol.ofToken
  split
  · exact isToken_epsilonName
  · split
    · exact htoken
    · exact htoken

theorem IsWord.newline_notMem {name : Name} (hname : IsWord name) : '\n' ∉ name.toList := by
  intro hnewline
  exact absurd (hname.noBlank '\n' hnewline) (by decide)

theorem isWord_of_mem_words {text word : List Char} (hword : word ∈ Text.words text)
    (htext : ¬ Text.HasArrow text) : IsWord (String.ofList word) := by
  obtain ⟨hne, hblank, hpart⟩ := Text.of_mem_words hword
  refine ⟨?_, ?_, ?_⟩
  · simpa using hne
  · simpa using hblank
  · rw [String.toList_ofList]
    exact fun harrow ↦ htext (harrow.mono hpart)

namespace Clause

variable {previous : Option Name} {number : Nat} {left : Name} {line text : List Char}

/-- A clause whose names could be written at their places. -/
structure Writable (clause : Clause) : Prop where
  left : IsWord clause.left
  alternatives_ne_nil : clause.alternatives ≠ []
  tokens : ∀ alternative ∈ clause.alternatives, ∀ token ∈ alternative, IsToken token

theorem isWord_of_readLeft (hleft : readLeft text = .ok left) (htext : ¬ Text.HasArrow text) :
    IsWord left := by
  unfold readLeft at hleft
  split at hleft
  · exact absurd hleft (by simp)
  · next name hwords =>
    obtain rfl := Except.ok.inj hleft
    exact isWord_of_mem_words (hwords ▸ List.mem_singleton_self name) htext
  · exact absurd hleft (by simp)

theorem isToken_of_mem_readAlternatives {alternative : List Name} {token : Name}
    (htext : ¬ Text.HasArrow text) (halternative : alternative ∈ readAlternatives text)
    (htoken : token ∈ alternative) : IsToken token := by
  obtain ⟨piece, hpiece, rfl⟩ := List.mem_map.1 halternative
  obtain ⟨word, hword, rfl⟩ := List.mem_map.1 htoken
  have hinfix : piece <:+: text := Text.infix_of_mem_pieces hpiece
  have hpieceArrow : ¬ Text.HasArrow piece := fun harrow ↦ htext (harrow.mono hinfix)
  refine ⟨isWord_of_mem_words hword hpieceArrow, fun hbar ↦ ?_⟩
  rw [String.toList_ofList] at hbar
  have hmember : '|' ∈ piece := (Text.of_mem_words hword).2.2.subset hbar
  exact absurd (Text.isCut_of_mem_pieces hpiece hmember) (by decide)

/-- The head of a line gives a word, and a text without an arrow behind it. -/
theorem of_readHead_eq_ok (hhead : readHead previous line = .ok (left, text))
    (hprevious : ∀ name, previous = some name → IsWord name) :
    IsWord left ∧ ¬ Text.HasArrow text := by
  unfold readHead at hhead
  split at hhead
  · next before after hcut =>
    split at hhead
    · exact absurd hhead (by simp)
    · next hafter =>
      obtain ⟨hbefore, hfree⟩ := Text.of_cutArrow?_eq_some hcut
      cases hleft : readLeft before with
      | error fault => simp [hleft, Except.map] at hhead
      | ok name =>
        obtain ⟨rfl, rfl⟩ : name = left ∧ after = text := by
          simpa [hleft, Except.map] using hhead
        refine ⟨isWord_of_readLeft hleft hfree, Text.cutArrow?_eq_none_iff.1 ?_⟩
        simpa using hafter
  · next hnone =>
    have hline := Text.cutArrow?_eq_none_iff.1 hnone
    split at hhead
    · exact absurd hhead (by simp)
    · next name rest hrest =>
      obtain ⟨rfl, rfl⟩ : name = left ∧ rest = text := by simpa using hhead
      refine ⟨hprevious name rfl, fun harrow ↦ hline ?_⟩
      have hsuffix : '|' :: rest <:+ line := hrest ▸ List.dropWhile_suffix Text.isBlank
      exact harrow.mono ((List.suffix_cons '|' rest).trans hsuffix).isInfix
    · exact absurd hhead (by simp)

theorem writable_of_readLines {lines : List (List Char)} {clauses : List Clause}
    (hlines : readLines previous number lines = .ok clauses)
    (hprevious : ∀ name, previous = some name → IsWord name) :
    ∀ clause ∈ clauses, clause.Writable := by
  induction lines generalizing previous number clauses with
  | nil =>
    obtain rfl := Except.ok.inj hlines
    exact fun clause hclause ↦ absurd hclause List.not_mem_nil
  | cons line lines ih =>
    unfold readLines at hlines
    split at hlines
    · exact ih hlines hprevious
    · split at hlines
      · exact absurd hlines (by simp)
      · next left text hhead =>
        obtain ⟨hleft, htext⟩ := of_readHead_eq_ok hhead hprevious
        cases hrest : readLines (some left) (number + 1) lines with
        | error error => simp [hrest, Except.map] at hlines
        | ok rest =>
          obtain rfl : ⟨number, left, readAlternatives text⟩ :: rest = clauses := by
            simpa [hrest, Except.map] using hlines
          intro clause hclause
          rcases List.mem_cons.1 hclause with rfl | hclause
          · refine ⟨hleft, ?_, fun alternative halternative token htoken ↦ ?_⟩
            · simp [readAlternatives]
            · exact isToken_of_mem_readAlternatives htext halternative htoken
          · have hnext : ∀ name, some left = some name → IsWord name :=
              fun name hsame ↦ Option.some.inj hsame ▸ hleft
            exact ih hrest hnext clause hclause

end Clause

namespace Grammar

variable {g : Grammar} {text : String} {clauses : List Clause}

theorem ofText_eq_ok_iff : ofText text = .ok g ↔ ∃ clauses,
    Clause.readLines none 1 (Text.pieces (· == '\n') text.toList) = .ok clauses ∧
      (∀ clause ∈ clauses, [] ∉ clause.alternatives) ∧ ofClauses clauses = g ∧ g.Valid := by
  unfold ofText
  rw [bind_eq_ok_iff]
  apply exists_congr
  intro clauses
  apply and_congr_right
  intro _
  have hempty : clauses.findSome? Clause.emptyAlternative? = none ↔
      ∀ clause ∈ clauses, [] ∉ clause.alternatives := by
    simp [List.findSome?_eq_none_iff, Clause.emptyAlternative?]
  rw [← hempty]
  cases clauses.findSome? Clause.emptyAlternative? with
  | some error => simp
  | none =>
    rw [eq_self, true_and]
    exact validate_bind_pure_eq_ok_iff

/-- A grammar of clauses has for each name the alternatives of the name's clauses. -/
theorem mem_productionsOf_ofClauses {n : Name} {p : Production} :
    p ∈ (ofClauses clauses).productionsOf n ↔ ∃ clause ∈ clauses, clause.left = n ∧
      ∃ alternative ∈ clause.alternatives,
        p = alternative.map (Symbol.ofToken (clauses.map Clause.left)) := by
  by_cases hn : n ∈ clauses.map Clause.left
  · rw [ofClauses, productionsOf_ofNames hn]
    simp only [List.mem_flatMap, List.mem_filter, decide_eq_true_eq, List.mem_map, and_assoc,
      eq_comm (a := p)]
  · have hnone : n ∉ (ofClauses clauses).names := by
      rwa [ofClauses, names_ofNames, List.mem_eraseDups]
    rw [productionsOf_eq_nil hnone]
    constructor
    · exact fun hp ↦ absurd hp List.not_mem_nil
    · intro hclause
      obtain ⟨clause, hclause, rfl, -⟩ := hclause
      exact absurd (List.mem_map_of_mem hclause) hn

/-- What is read from text is valid and has names that tell the kinds of its symbols. -/
theorem namesTellKinds_ofText (hread : ofText text = .ok g) : g.Valid ∧ g.NamesTellKinds := by
  obtain ⟨clauses, -, -, rfl, hvalid⟩ := ofText_eq_ok_iff.1 hread
  refine ⟨hvalid, namesTellKinds_ofNames hvalid fun n _ p hp s hs ↦ ?_⟩
  obtain ⟨clause, -, halternative⟩ := List.mem_flatMap.1 hp
  obtain ⟨alternative, -, rfl⟩ := List.mem_map.1 halternative
  obtain ⟨token, -, rfl⟩ := List.mem_map.1 hs
  exact ⟨token, rfl⟩

end Grammar

end ContextFree
