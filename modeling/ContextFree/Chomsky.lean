import ContextFree.Binary
import ContextFree.Isolated
import ContextFree.NullFree
import ContextFree.UnitFree

/-!
# Chomsky normal form

In Chomsky normal form a production is one terminal or two declared non-terminals; the start symbol
may also derive `λ`.  `Grammar.toChomsky` removes empty and unit productions, splits what is long
and isolates terminals.  As the unit productions are removed in one pass, some may be left: a result
fails to be in normal form for that reason only.
-/

namespace ContextFree

namespace Production

/-- Whether a production may stand in Chomsky normal form. -/
def isChomsky (declared : List Name) (isStart : Bool) : Production → Bool
  | [.terminal _] => true
  | [.nonTerminal first, .nonTerminal second] =>
    declared.contains first && declared.contains second
  | [.epsilon] => isStart
  | _ => false

end Production

namespace Grammar

def isChomsky (g : Grammar) : Bool :=
  g.rules.all fun (left, productions) ↦
    productions.all (Production.isChomsky g.names (g.isStart left))

def toChomsky (g : Grammar) : Except GrammarError Grammar := do
  let g ← g.eliminateNull g.nullable
  let g ← g.eliminateUnits
  let (g, fresh) ← g.binarize {}
  let (g, _) ← g.isolateTerminals fresh
  return g

end Grammar

end ContextFree
