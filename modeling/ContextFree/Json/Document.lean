import ContextFree.Grammar.Basic

/-!
# Grammars as JSON documents

A grammar is written as a map from each non-terminal to the list of its productions, a production as
the list of its symbols' names.  The kinds of the symbols are not written: they are found again from
the names of the map, as in any written grammar.
-/

namespace ContextFree.Json

/-- The members of a map in the order they are written; a name may come more than once. -/
abbrev Document := List (Name × List (List Name))

namespace Document

def ofGrammar (g : Grammar) : Document :=
  g.rules.map fun (name, productions) ↦ (name, productions.map (·.map Symbol.name))

/-- The last value written for a name. -/
def lastValue (document : Document) (name : Name) : List (List Name) :=
  (document.reverse.lookup name).getD []

/-- Reads the productions of every name.  A repeated name keeps its first place and takes its last
value. -/
def toGrammar (document : Document) : Grammar :=
  let declared := document.map Prod.fst
  Grammar.ofNames declared fun name ↦
    (document.lastValue name).map (·.map (Symbol.ofToken declared))

end Document

end ContextFree.Json
