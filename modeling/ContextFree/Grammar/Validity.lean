import ContextFree.Error
import ContextFree.Grammar.Basic

/-!
# Well-formed grammars

A production is well formed when it is not empty, the empty string stands only alone, and every
non-terminal in it is declared.  A grammar is valid when all its productions are well formed;
`validate_eq_ok_iff` says that `Grammar.validate` accepts exactly the valid grammars.
-/

namespace ContextFree

namespace Production

/-- The first fault of a production, given the declared non-terminals. -/
def fault? (declared : List Name) (p : Production) : Option ProductionFault :=
  if p = [] then some .empty
  else if 1 < p.length ∧ Symbol.epsilon ∈ p then some .epsilonNotAlone
  else (p.nonTerminals.find? (· ∉ declared)).map .undeclared

structure WellFormed (declared : List Name) (p : Production) : Prop where
  ne_nil : p ≠ []
  eq_epsilon_of_mem : Symbol.epsilon ∈ p → p = epsilon
  declared_of_mem : ∀ name, Symbol.nonTerminal name ∈ p → name ∈ declared

theorem fault?_eq_none_iff {declared : List Name} {p : Production} :
    p.fault? declared = none ↔ p.WellFormed declared := by
  have halone : ¬ (1 < p.length ∧ Symbol.epsilon ∈ p) ↔ (Symbol.epsilon ∈ p → p = epsilon) := by
    match p with
    | [] => simp
    | [s] => simp [epsilon, eq_comm]
    | s :: t :: rest => simp [epsilon]
  unfold fault?
  split
  · next h =>
    simp only [reduceCtorEq, false_iff]
    exact fun hwell ↦ hwell.ne_nil h
  · next hne =>
    split
    · next h =>
      simp only [reduceCtorEq, false_iff]
      exact fun hwell ↦ halone.2 hwell.eq_epsilon_of_mem h
    · next h =>
      simp only [Option.map_eq_none_iff, List.find?_eq_none, mem_nonTerminals, decide_not,
        Bool.not_eq_true', decide_eq_false_iff_not, Decidable.not_not]
      exact ⟨fun hwell ↦ ⟨hne, halone.1 h, hwell⟩, fun hwell ↦ hwell.declared_of_mem⟩

end Production

namespace Grammar

/-- The first fault of a rule. -/
def ruleFault? (declared : List Name) (rule : Rule) : Option GrammarError :=
  (rule.2.findSome? (Production.fault? declared)).map (.malformed rule.1)

/-- The first fault of the productions, in the order of the rules. -/
def fault? (g : Grammar) : Option GrammarError :=
  g.rules.findSome? (ruleFault? g.names)

/-- Fails with the first fault of the productions. -/
def validate (g : Grammar) : Except GrammarError Unit :=
  match g.fault? with
  | some error => .error error
  | none => .ok ()

/-- Every production of every rule is well formed. -/
def Valid (g : Grammar) : Prop :=
  ∀ rule ∈ g.rules, ∀ p ∈ rule.2, Production.WellFormed g.names p

theorem fault?_eq_none_iff {g : Grammar} : g.fault? = none ↔ g.Valid := by
  simp [fault?, ruleFault?, Valid, List.findSome?_eq_none_iff, Production.fault?_eq_none_iff]

theorem validate_eq_ok_iff {g : Grammar} : g.validate = .ok () ↔ g.Valid := by
  rw [← fault?_eq_none_iff, validate]
  split <;> simp_all

end Grammar

end ContextFree
