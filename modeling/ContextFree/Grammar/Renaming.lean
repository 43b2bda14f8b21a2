import ContextFree.Grammar.Basic

/-!
# Renaming terminals

A map on the names of terminals acts on symbols, right-hand sides and grammars.  Non-terminals and
the mark of the empty string are left as they are, so a terminal may be renamed to the name of a
non-terminal.
-/

namespace ContextFree

namespace Symbol

def renameTerminal (f : Name → Name) : Symbol → Symbol
  | terminal name => terminal (f name)
  | symbol => symbol

@[simp] theorem nonTerminal?_renameTerminal (f : Name → Name) (s : Symbol) :
    (s.renameTerminal f).nonTerminal? = s.nonTerminal? := by
  cases s <;> rfl

theorem renameTerminal_injective {f : Name → Name} (hf : ∀ a b, f a = f b → a = b)
    {s t : Symbol} (h : s.renameTerminal f = t.renameTerminal f) : s = t := by
  cases s <;> cases t <;> simp_all [renameTerminal]
  exact hf _ _ h

end Symbol

namespace Production

def renameTerminals (f : Name → Name) (p : Production) : Production :=
  p.map (Symbol.renameTerminal f)

@[simp] theorem nonTerminals_renameTerminals (f : Name → Name) (p : Production) :
    (p.renameTerminals f).nonTerminals = p.nonTerminals := by
  unfold renameTerminals nonTerminals
  rw [List.filterMap_map]
  exact congrArg (List.filterMap · p)
    (funext fun s ↦ Symbol.nonTerminal?_renameTerminal f s)

end Production

namespace Grammar

def renameTerminals (f : Name → Name) (g : Grammar) : Grammar :=
  g.mapProductions fun _ productions ↦ productions.map (Production.renameTerminals f)

@[simp] theorem names_renameTerminals (f : Name → Name) (g : Grammar) :
    (g.renameTerminals f).names = g.names := by
  simp [renameTerminals]

end Grammar

end ContextFree
