import ContextFree.Proofs.Format.Reading
import ContextFree.Proofs.SymbolKinds
import Mathlib.Data.List.SplitBy

/-!
# The grammar that a text writes

A left-hand side opens a paragraph, and continuations stay in it.  The left-hand sides, in order of
first appearance, are the names of the grammar, and the alternatives of a name are those of its
paragraphs, in the order of the text.  That is the grammar that comes of carrying the left-hand
sides from entry to entry.
-/

namespace ContextFree.Format

variable {entries : List Entry} {clauses : List Clause} {previous : Option Name} {n : Name}
  {alternative : List Name} {g h : Grammar}

/-- The left-hand sides that stand in the text. -/
def lefts (entries : List Entry) : List Name :=
  entries.filterMap Entry.left?

def Entry.isContinuation (entry : Entry) : Bool :=
  entry.left?.isNone

/-- Entries with a left-hand side, each with the continuations behind it. -/
def paragraphs (entries : List Entry) : List (List Entry) :=
  entries.splitBy fun _ entry ↦ entry.isContinuation

/-- The alternatives of a left-hand side, from all its paragraphs. -/
def alternativesOf (entries : List Entry) (n : Name) : List (List Name) :=
  ((paragraphs entries).filter fun paragraph ↦ paragraph.head?.bind Entry.left? = some n).flatMap
    fun paragraph ↦ paragraph.flatMap Entry.alternatives

/-- A token is an epsilon if it is a spelling of one, else a non-terminal if it is a left-hand side
anywhere in the text, else a terminal. -/
inductive Stands (lefts : List Name) (token : Name) : Symbol → Prop
  | epsilon : token ∈ epsilonSpellings → Stands lefts token .epsilon
  | nonTerminal : token ∉ epsilonSpellings → token ∈ lefts → Stands lefts token (.nonTerminal token)
  | terminal : token ∉ epsilonSpellings → token ∉ lefts → Stands lefts token (.terminal token)

/-- The grammar of some entries. -/
structure Writes (entries : List Entry) (g : Grammar) : Prop where
  names : g.names = (lefts entries).eraseDups
  stands : ∀ n, List.Forall₂ (List.Forall₂ (Stands (lefts entries)))
    (alternativesOf entries n) (g.productionsOf n)

/-! ## Tokens -/

theorem stands_iff {lefts : List Name} {token : Name} {s : Symbol} :
    Stands lefts token s ↔ Symbol.ofToken lefts token = s := by
  unfold Symbol.ofToken
  constructor
  · intro hstands
    cases hstands with
    | epsilon hspelling => rw [if_pos hspelling]
    | nonTerminal hspelling hleft => rw [if_neg hspelling, if_pos hleft]
    | terminal hspelling hleft => rw [if_neg hspelling, if_neg hleft]
  · rintro rfl
    split
    · next hspelling => exact .epsilon hspelling
    · next hspelling =>
      split
      · next hleft => exact .nonTerminal hspelling hleft
      · next hleft => exact .terminal hspelling hleft

theorem forall₂_apply_eq_iff {α β : Type} {f : α → β} {l : List α} {m : List β} :
    List.Forall₂ (fun a b ↦ f a = b) l m ↔ l.map f = m := by
  rw [← List.forall₂_map_left_iff (R := Eq), List.forall₂_eq_eq_eq]

theorem forall₂_stands_iff {lefts : List Name} {alternatives : List (List Name)}
    {productions : List Production} :
    List.Forall₂ (List.Forall₂ (Stands lefts)) alternatives productions ↔
      alternatives.map (·.map (Symbol.ofToken lefts)) = productions := by
  have htoken : Stands lefts = fun token s ↦ Symbol.ofToken lefts token = s := by
    funext token s
    exact propext stands_iff
  have halternative : List.Forall₂ (Stands lefts) =
      fun alternative p ↦ alternative.map (Symbol.ofToken lefts) = p := by
    funext alternative p
    rw [htoken, forall₂_apply_eq_iff]
  rw [halternative, forall₂_apply_eq_iff]

theorem Writes.productionsOf_eq (hwrites : Writes entries g) (n : Name) : g.productionsOf n =
    (alternativesOf entries n).map (·.map (Symbol.ofToken (lefts entries))) :=
  (forall₂_stands_iff.1 (hwrites.stands n)).symm

/-- Entries write one grammar. -/
theorem Writes.unique (hg : Writes entries g) (hh : Writes entries h) : g = h :=
  Grammar.ext_of_productionsOf (hg.names.trans hh.names.symm) fun n _ ↦
    (hg.productionsOf_eq n).trans (hh.productionsOf_eq n).symm

/-! ## Paragraphs -/

/-- An entry is followed in its paragraph by the continuations up to the next left-hand side. -/
theorem paragraphs_cons (entry : Entry) (entries : List Entry) :
    paragraphs (entry :: entries) = (entry :: entries.takeWhile Entry.isContinuation) ::
      paragraphs (entries.dropWhile Entry.isContinuation) := by
  unfold paragraphs
  -- The block of `entry` ends in front of the next left-hand side, and not before.
  have hopen : ∀ x ∈ (entry :: entries.takeWhile Entry.isContinuation).getLast?,
      ∀ y ∈ (entries.dropWhile Entry.isContinuation).head?, y.isContinuation = false := by
    intro x _ y hy
    have hhead := List.head?_dropWhile_not Entry.isContinuation entries
    rw [Option.mem_def.1 hy] at hhead
    simpa using hhead
  have hchain : (entry :: entries.takeWhile Entry.isContinuation).IsChain
      fun _ y ↦ y.isContinuation = true := by
    refine List.Pairwise.isChain (List.pairwise_cons.2 ⟨?_, ?_⟩)
    · exact fun y hy ↦ List.mem_takeWhile_imp hy
    · exact List.pairwise_of_forall_mem_list fun _ _ y hy ↦ List.mem_takeWhile_imp hy
  have hsplit := List.splitBy_append hopen
  rw [List.cons_append, List.takeWhile_append_dropWhile] at hsplit
  rw [hsplit, List.splitBy_of_isChain (List.cons_ne_nil _ _) hchain]
  rfl

theorem alternativesOf_cons (entry : Entry) (entries : List Entry) (n : Name) :
    alternativesOf (entry :: entries) n =
      (if entry.left? = some n then entry.alternatives ++
        (entries.takeWhile Entry.isContinuation).flatMap Entry.alternatives else []) ++
        alternativesOf (entries.dropWhile Entry.isContinuation) n := by
  rw [alternativesOf, paragraphs_cons, List.filter_cons]
  by_cases hleft : entry.left? = some n <;> simp [hleft, alternativesOf]

/-! ## Carrying left-hand sides -/

theorem Carries.alternatives (hcarries : Carries previous entries clauses) (n : Name) :
    (clauses.filter (·.left = n)).flatMap Clause.alternatives =
      (if previous = some n then
        (entries.takeWhile Entry.isContinuation).flatMap Entry.alternatives else []) ++
        alternativesOf (entries.dropWhile Entry.isContinuation) n := by
  induction hcarries with
  | nil => simp [alternativesOf, paragraphs]
  | @cons previous entry left entries clauses hleft hrest ih =>
    rw [List.filter_cons]
    cases hown : entry.left? with
    | none =>
      -- A continuation stands in the paragraph that is carried along.
      have hcontinued : entry.isContinuation = true := by simp [Entry.isContinuation, hown]
      obtain rfl : previous = some left := by simpa [hown] using hleft
      rw [List.takeWhile_cons_of_pos hcontinued, List.dropWhile_cons_of_pos hcontinued]
      by_cases hleft : left = n <;> simp [hleft, ih]
    | some own =>
      have hopened : ¬ entry.isContinuation = true := by simp [Entry.isContinuation, hown]
      obtain rfl : own = left := by simpa [hown] using hleft
      rw [List.takeWhile_cons_of_neg hopened, List.dropWhile_cons_of_neg hopened,
        alternativesOf_cons, hown]
      by_cases hleft : own = n <;> simp [hleft, ih]

/-- The alternatives of a name are those of its clauses. -/
theorem Carries.alternatives_of_none (hcarries : Carries none entries clauses) (n : Name) :
    (clauses.filter (·.left = n)).flatMap Clause.alternatives = alternativesOf entries n := by
  have hfirst : entries.dropWhile Entry.isContinuation = entries := by
    cases hcarries with
    | nil => rfl
    | cons hleft _ =>
      rw [Option.or_none] at hleft
      rw [List.dropWhile_cons_of_neg (by simp [Entry.isContinuation, hleft])]
  simpa [hfirst] using hcarries.alternatives n

/-- A name that has been seen before is not counted again. -/
theorem eraseDups_append_cons_of_mem {seen rest : List Name} (hn : n ∈ seen) :
    (seen ++ n :: rest).eraseDups = (seen ++ rest).eraseDups := by
  rw [List.eraseDups_append, List.eraseDups_append]
  simp [List.removeAll, hn]

/-- Carrying a left-hand side along repeats it and changes no first appearance. -/
theorem Carries.eraseDups_lefts (hcarries : Carries previous entries clauses) {seen : List Name}
    (hseen : ∀ left, previous = some left → left ∈ seen) :
    (seen ++ clauses.map Clause.left).eraseDups = (seen ++ lefts entries).eraseDups := by
  induction hcarries generalizing seen with
  | nil => rfl
  | @cons previous entry left entries clauses hleft hrest ih =>
    cases hown : entry.left? with
    | none =>
      have hmember : left ∈ seen := hseen left (by simpa [hown] using hleft)
      have hcarried : ∀ other, some left = some other → other ∈ seen :=
        fun other hsame ↦ Option.some.inj hsame ▸ hmember
      rw [List.map_cons, eraseDups_append_cons_of_mem hmember, ih hcarried]
      simp [lefts, hown]
    | some own =>
      obtain rfl : own = left := by simpa [hown] using hleft
      have hcarried : ∀ other, some own = some other → other ∈ seen ++ [own] :=
        fun other hsame ↦ Option.some.inj hsame ▸ List.mem_append_right seen List.mem_cons_self
      simpa [lefts, hown] using ih hcarried

/-- The clauses of entries make the grammar that the entries write. -/
theorem Carries.writes_ofClauses (hcarries : Carries none entries clauses) :
    Writes entries (Grammar.ofClauses clauses) := by
  have hnone : ∀ left, none = some left → left ∈ ([] : List Name) := fun _ hsame ↦ nomatch hsame
  have hlefts : (clauses.map Clause.left).eraseDups = (lefts entries).eraseDups :=
    hcarries.eraseDups_lefts hnone
  have htokens : Symbol.ofToken (clauses.map Clause.left) = Symbol.ofToken (lefts entries) := by
    funext token
    rw [← Symbol.ofToken_eraseDups, hlefts, Symbol.ofToken_eraseDups]
  refine ⟨by rw [Grammar.ofClauses, Grammar.names_ofNames, hlefts], fun n ↦ ?_⟩
  rw [forall₂_stands_iff, ← hcarries.alternatives_of_none, ← htokens]
  by_cases hn : n ∈ clauses.map Clause.left
  · rw [Grammar.ofClauses, Grammar.productionsOf_ofNames hn, List.map_flatMap]
  · have hnone : n ∉ (Grammar.ofClauses clauses).names := by
      rwa [Grammar.ofClauses, Grammar.names_ofNames, List.mem_eraseDups]
    have hothers : clauses.filter (·.left = n) = [] := by
      simpa [List.filter_eq_nil_iff] using hn
    rw [Grammar.productionsOf_eq_nil hnone, hothers]
    rfl

theorem Carries.flatMap_alternatives (hcarries : Carries previous entries clauses) :
    clauses.flatMap Clause.alternatives = entries.flatMap Entry.alternatives := by
  induction hcarries with
  | nil => rfl
  | cons _ _ ih => rw [List.flatMap_cons, List.flatMap_cons, ih]

/-- The alternatives of the names are those that stand in the text. -/
theorem Carries.exists_mem_alternativesOf_iff (hcarries : Carries none entries clauses) :
    (∃ n, alternative ∈ alternativesOf entries n) ↔
      ∃ entry ∈ entries, alternative ∈ entry.alternatives := by
  rw [← List.mem_flatMap, ← hcarries.flatMap_alternatives, List.mem_flatMap]
  simp only [← hcarries.alternatives_of_none, List.mem_flatMap, List.mem_filter,
    decide_eq_true_eq]
  constructor
  · intro h
    obtain ⟨n, clause, ⟨hclause, -⟩, halternative⟩ := h
    exact ⟨clause, hclause, halternative⟩
  · intro h
    obtain ⟨clause, hclause, halternative⟩ := h
    exact ⟨clause.left, clause, ⟨hclause, rfl⟩, halternative⟩

/-- Looking for an empty alternative finds the same line among the clauses. -/
theorem Carries.findSome?_emptyAlternative? (hcarries : Carries previous entries clauses) :
    clauses.findSome? Clause.emptyAlternative? = entries.findSome? fun entry ↦
      if entry.alternatives.contains [] then some (.badLine entry.number .emptyAlternative)
      else none := by
  induction hcarries with
  | nil => rfl
  | cons _ _ ih => rw [List.findSome?_cons, List.findSome?_cons, ih, Clause.emptyAlternative?]

/-! ## Validity -/

/-- A spelling of the empty string is the only token. -/
def EpsilonAlone (alternative : List Name) : Prop :=
  ∀ token ∈ alternative, token ∈ epsilonSpellings → alternative = [token]

instance : Decidable (EpsilonAlone alternative) :=
  inferInstanceAs (Decidable (∀ token ∈ alternative, _))

theorem epsilon_mem_map_ofToken_iff {declared : List Name} :
    Symbol.epsilon ∈ alternative.map (Symbol.ofToken declared) ↔
      ∃ token ∈ alternative, token ∈ epsilonSpellings := by
  simp only [List.mem_map, Symbol.ofToken_eq_epsilon_iff]

theorem not_epsilonAlone_iff (hne : alternative ≠ []) : ¬ EpsilonAlone alternative ↔
    1 < alternative.length ∧ ∃ token ∈ alternative, token ∈ epsilonSpellings := by
  simp only [EpsilonAlone, not_forall]
  match alternative with
  | [] => exact absurd rfl hne
  | [token] => simp
  | first :: second :: rest => simp

/-- All that can be wrong with a written production is an epsilon beside other symbols. -/
theorem fault?_map_ofToken {declared : List Name} (hne : alternative ≠ []) :
    Production.fault? declared (alternative.map (Symbol.ofToken declared)) =
      if EpsilonAlone alternative then none else some .epsilonNotAlone := by
  have hmixed : 1 < (alternative.map (Symbol.ofToken declared)).length ∧
      Symbol.epsilon ∈ alternative.map (Symbol.ofToken declared) ↔ ¬ EpsilonAlone alternative := by
    rw [List.length_map, epsilon_mem_map_ofToken_iff, not_epsilonAlone_iff hne]
  have hdeclared : (Production.nonTerminals (alternative.map (Symbol.ofToken declared))).find?
      (· ∉ declared) = none := by
    rw [List.find?_eq_none]
    intro n hn
    obtain ⟨token, -, htoken⟩ := List.mem_map.1 (Production.mem_nonTerminals.1 hn)
    simpa using (Symbol.ofToken_eq_nonTerminal_iff.1 htoken).2.1
  rw [Production.fault?, hdeclared]
  simp only [hmixed, List.map_eq_nil_iff, hne, Option.map_none]
  by_cases halone : EpsilonAlone alternative <;> simp [halone]

theorem findSome?_fault?_map_ofToken {declared : List Name} {alternatives : List (List Name)}
    (hfilled : [] ∉ alternatives) :
    (alternatives.map (·.map (Symbol.ofToken declared))).findSome? (Production.fault? declared) =
      if alternatives.any (¬ EpsilonAlone ·) then some .epsilonNotAlone else none := by
  induction alternatives with
  | nil => rfl
  | cons alternative alternatives ih =>
    obtain ⟨hne, hrest⟩ := not_or.1 (mt List.mem_cons.2 hfilled)
    rw [List.map_cons, List.findSome?_cons, fault?_map_ofToken (Ne.symm hne), ih hrest]
    by_cases halone : EpsilonAlone alternative <;> simp [halone]

theorem Writes.ofToken_eq (hwrites : Writes entries g) :
    Symbol.ofToken (lefts entries) = Symbol.ofToken g.names := by
  funext token
  rw [hwrites.names, Symbol.ofToken_eraseDups]

/-- In a written grammar that is valid, every epsilon stands alone. -/
theorem Writes.epsilonAlone (hwrites : Writes entries g) (hvalid : g.Valid)
    (halternative : alternative ∈ alternativesOf entries n) (hne : alternative ≠ []) :
    EpsilonAlone alternative := by
  have hp : alternative.map (Symbol.ofToken g.names) ∈ g.productionsOf n := by
    rw [hwrites.productionsOf_eq, hwrites.ofToken_eq]
    exact List.mem_map_of_mem halternative
  have hfault := Production.fault?_eq_none_iff.2 (hvalid.wellFormed hp)
  by_contra hmixed
  simp [fault?_map_ofToken hne, hmixed] at hfault

/-- A written grammar whose alternatives have tokens is refused for its first name with an epsilon
beside other tokens. -/
theorem Writes.validate_eq_error_iff {error : GrammarError} (hwrites : Writes entries g)
    (hfilled : ∀ n, [] ∉ alternativesOf entries n) : g.validate = .error error ↔
      ∃ n, Grammar.First (lefts entries).eraseDups
        (fun n ↦ ∃ alternative ∈ alternativesOf entries n, ¬ EpsilonAlone alternative) n ∧
          error = .malformed n .epsilonNotAlone := by
  have hvalidate : g.validate = .error error ↔ g.fault? = some error := by
    unfold Grammar.validate
    cases g.fault? <;> simp
  have hfault : g.fault? = g.names.findSome? fun n ↦
      if (alternativesOf entries n).any (¬ EpsilonAlone ·) then
        some (.malformed n .epsilonNotAlone) else none := by
    rw [Grammar.fault?, Grammar.rules_eq_map, List.findSome?_map]
    congr 1
    funext n
    rw [Function.comp_apply, Grammar.ruleFault?, hwrites.productionsOf_eq n, hwrites.ofToken_eq,
      findSome?_fault?_map_ofToken (hfilled n), apply_ite (Option.map _)]
    rfl
  rw [hvalidate, hfault, hwrites.names]
  exact Grammar.findSome?_eq_some_iff_first fun n ↦ by simp

end ContextFree.Format
