import ContextFree.FreshNames
import ContextFree.Grammar.Validity

/-!
# Splitting long productions

A production `N -> s₀ s₁ … sₖ` of three or more symbols becomes a chain `N -> s₀ N₀`, `N₀ -> s₁ N₁`,
…, each new non-terminal standing for the rest of the right-hand side.  The chain is a recursion on
that rest.  New non-terminals are minted with `N` as base.
-/

namespace ContextFree

/-- What a change of form gives: a result, the rules to append, and the generator afterwards. -/
structure Extended (α : Type) where
  result : α
  added : List Rule
  fresh : FreshNames

/-- Changes the elements of a list one after the other. -/
def Extended.traverse {α β : Type} (f : FreshNames → α → Extended β) (fresh : FreshNames) :
    List α → Extended (List β)
  | [] => ⟨[], [], fresh⟩
  | a :: rest =>
    let first := f fresh a
    let others := traverse f first.fresh rest
    ⟨first.result :: others.result, first.added ++ others.added, others.fresh⟩

namespace Production

/-- The first two symbols of a production and the rules for the rest. -/
def split (base : Name) (declared : List Name) (fresh : FreshNames) :
    Production → Extended Production
  | first :: second :: third :: rest =>
    let (name, fresh) := fresh.mint base declared
    let tail := split base declared fresh (second :: third :: rest)
    ⟨[first, .nonTerminal name], (name, [tail.result]) :: tail.added, tail.fresh⟩
  | short => ⟨short, [], fresh⟩

end Production

namespace Grammar

/-- Splits the productions of a rule, with its left-hand side as base. -/
def splitRule (declared : List Name) (fresh : FreshNames) (rule : Rule) : Extended Rule :=
  let split := Extended.traverse (Production.split rule.1 declared) fresh rule.2
  ⟨(rule.1, split.result), split.added, split.fresh⟩

def splitRules (declared : List Name) (fresh : FreshNames) (rules : List Rule) :
    Extended (List Rule) :=
  Extended.traverse (splitRule declared) fresh rules

@[simp] theorem map_fst_splitRules (declared : List Name) (fresh : FreshNames)
    (rules : List Rule) :
    (splitRules declared fresh rules).result.map Prod.fst = rules.map Prod.fst := by
  induction rules generalizing fresh with
  | nil => rfl
  | cons rule rules ih =>
    simpa [splitRules, Extended.traverse, splitRule] using ih _

/-- Splits every long production; also gives the generator afterwards. -/
def binarize (g : Grammar) (fresh : FreshNames) : Except GrammarError (Grammar × FreshNames) := do
  g.validate
  let split := splitRules g.names fresh g.rules
  let shortened : Grammar := ⟨split.result, by simpa [split] using g.distinct⟩
  return (← shortened.insertAllFresh split.added, split.fresh)

end Grammar

end ContextFree
