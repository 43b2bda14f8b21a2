import ContextFree.Closure
import ContextFree.Grammar.Validity

/-!
# Removing unit productions

A unit production `N -> M` gives way to the productions of `M`.  The non-terminals are taken once
each, in order, so an earlier `M` gives the productions it has got by then, and a later one still
gives those it started with.  A production `M -> N` is not taken back into `N`.

One such pass cannot resolve three or more non-terminals that reach each other through unit
productions; a grammar with such a cycle is refused.
-/

namespace ContextFree

namespace Grammar

/-- The non-terminals that a non-terminal has a unit production to. -/
def unitTargets (g : Grammar) (name : Name) : List Name :=
  (g.productionsOf name).filterMap Production.unitTarget?

/-- The declared non-terminals that are reached through one or more unit productions. -/
def unitReachable (g : Grammar) (name : Name) : List Name :=
  closure g.names fun seen ↦ (name :: seen).flatMap g.unitTargets

/-- The other non-terminals that are reached from a non-terminal and reach it, given what each
reaches. -/
def unitPartners (g : Grammar) (reachable : Name → List Name) (name : Name) : List Name :=
  g.names.filter fun other ↦
    other ≠ name && (reachable name).contains other && (reachable other).contains name

/-- The first non-terminal that is on a cycle of unit productions with more than one other. -/
def unitCycle? (g : Grammar) : Option GrammarError :=
  let table := g.names.map fun name ↦ (name, g.unitReachable name)
  let reachable := fun name ↦ (table.lookup name).getD []
  g.names.findSome? fun name ↦
    let others := g.unitPartners reachable name
    if 1 < others.length then some (.divergent name (.unitCycle others)) else none

/-- What takes the place of a production of `left`. -/
def withoutUnit (g : Grammar) (left : Name) (p : Production) : List Production :=
  match p.unitTarget? with
  | some target => (g.productionsOf target).filter (·.unitTarget? ≠ some left)
  | none => [p]

/-- Replaces the unit productions of one non-terminal. -/
def inlineUnits (g : Grammar) (left : Name) : Grammar :=
  g.modify left fun productions ↦ (productions.flatMap (g.withoutUnit left)).eraseDups

def eliminateUnits (g : Grammar) : Except GrammarError Grammar := do
  g.validate
  match g.unitCycle? with
  | some error => .error error
  | none => return g.names.foldl inlineUnits g

end Grammar

end ContextFree
