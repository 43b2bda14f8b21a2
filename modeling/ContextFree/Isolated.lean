import ContextFree.FreshNames
import ContextFree.Grammar.Validity

/-!
# Isolating terminals

In a production of two or more symbols every terminal gives way to a new non-terminal whose only
production is that terminal.  All occurrences of a terminal share one non-terminal, minted where the
terminal first occurs.  Productions of one symbol stay as they are.
-/

namespace ContextFree

/-- The non-terminal that stands for each terminal. -/
abbrev TerminalTable := List (Name × Name)

namespace TerminalTable

/-- The base of the names minted for terminals. -/
def base : Name := "T"

/-- Mints a non-terminal for each terminal, in order; also gives the generator afterwards. -/
def ofTerminals (declared : List Name) (fresh : FreshNames) :
    List Name → TerminalTable × FreshNames
  | [] => ([], fresh)
  | terminal :: rest =>
    let (name, fresh) := fresh.mint base declared
    let (table, fresh) := ofTerminals declared fresh rest
    ((terminal, name) :: table, fresh)

/-- The rules of the new non-terminals. -/
def rules (table : TerminalTable) : List Rule :=
  table.map fun (terminal, name) ↦ (name, [[.terminal terminal]])

def replace (table : TerminalTable) : Symbol → Symbol
  | .terminal terminal =>
    match table.lookup terminal with
    | some name => .nonTerminal name
    | none => .terminal terminal
  | symbol => symbol

end TerminalTable

namespace Production

def isolate (table : TerminalTable) (p : Production) : Production :=
  if p.length < 2 then p else p.map table.replace

end Production

namespace Grammar

/-- The terminals that occur beside other symbols, in order of first occurrence. -/
def mixedTerminals (g : Grammar) : List Name :=
  let productions := g.rules.flatMap Prod.snd
  ((productions.filter (1 < ·.length)).flatMap Production.terminals).eraseDups

/-- Isolates every terminal that occurs beside other symbols; also gives the generator
afterwards. -/
def isolateTerminals (g : Grammar) (fresh : FreshNames) :
    Except GrammarError (Grammar × FreshNames) := do
  g.validate
  let (table, fresh) := TerminalTable.ofTerminals g.names fresh g.mixedTerminals
  let isolated := g.mapProductions fun _ productions ↦ productions.map (·.isolate table)
  return (← isolated.insertAllFresh table.rules, fresh)

end Grammar

end ContextFree
