import ContextFree.Grammar.Validity

/-!
# Removing empty productions

Only the start symbol may keep the production `λ`.  To make up for the others, a production gets one
variant for each name of a given set that it mentions, with the first occurrence of that name
deleted.  A variant that becomes empty counts as `λ`, and so is kept for the start symbol only.
-/

namespace ContextFree

namespace Production

/-- The production without the first occurrence of a non-terminal, if it has one and if anything
may be left. -/
def nullVariant? (isStart : Bool) (p : Production) (name : Name) : Option Production :=
  if Symbol.nonTerminal name ∈ p then
    match p.erase (Symbol.nonTerminal name) with
    | [] => if isStart then some epsilon else none
    | variant => some variant
  else none

/-- What takes the place of a production: its variants in the order of the names, then itself. -/
def nullVariants (isStart : Bool) (nullable : List Name) (p : Production) : List Production :=
  if p = epsilon ∧ isStart = false then []
  else nullable.filterMap (p.nullVariant? isStart) ++ [p]

end Production

namespace Grammar

/-- The non-terminals with a production `λ`. -/
def nullable (g : Grammar) : List Name :=
  (g.rules.filter (·.2.contains Production.epsilon)).map Prod.fst

/-- Removes the empty productions of a grammar, making up for the given names. -/
def eliminateNull (g : Grammar) (nullable : List Name) : Except GrammarError Grammar := do
  g.validate
  return g.mapProductions fun left productions ↦
    (productions.flatMap (Production.nullVariants (g.isStart left) nullable)).eraseDups

end Grammar

end ContextFree
