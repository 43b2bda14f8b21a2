import ContextFree.Closure
import ContextFree.FreshNames
import ContextFree.Grammar.Validity
import ContextFree.UnitFree

/-!
# Greibach normal form

In Greibach normal form a production is a terminal followed by declared non-terminals only; the
start symbol may also derive `λ`.

The non-terminals are ordered as declared.  Going forward, a production of `A` that starts with an
earlier non-terminal is expanded by that one's productions, and the immediate left recursion then
left on `A` is moved into a new non-terminal, the tail of `A`: `A -> A a | b` becomes `A -> b | b T`
and `T -> a | a T`.  After that a production starts with a terminal or a later non-terminal.  Going
backward, and then through the tails in the order of their creation, the non-terminal at the front
of a production gives way to its productions, which start with terminals by then.
-/

namespace ContextFree

namespace Production

/-- Whether a production may stand in Greibach normal form. -/
def isGreibach (declared : List Name) (isStart : Bool) : Production → Bool
  | .terminal _ :: rest => rest.all fun symbol ↦ symbol.nonTerminal?.any declared.contains
  | [.epsilon] => isStart
  | _ => false

/-- The productions with their first symbol replaced by each of the given right-hand sides. -/
def replaceFirst (replacements : List Production) (p : Production) : List Production :=
  replacements.map (· ++ p.drop 1)

/-- The production alone and followed by a symbol. -/
def withTail (tail : Symbol) (p : Production) : List Production :=
  [p, p ++ [tail]]

end Production

namespace Grammar

def isGreibach (g : Grammar) : Bool :=
  g.rules.all fun (left, productions) ↦
    productions.all (Production.isGreibach g.names (g.isStart left))

/-! ## What stands in the way -/

/-- The non-terminals that derive a string of terminals. -/
def productive (g : Grammar) : List Name :=
  closure g.names fun seen ↦
    (g.rules.filter (·.2.any fun p ↦ p.nonTerminals.all seen.contains)).map Prod.fst

/-- Whether a non-terminal occurs on a right-hand side. -/
def mentions (g : Grammar) (name : Name) : Bool :=
  g.rules.any fun rule ↦ rule.2.any (·.contains (Symbol.nonTerminal name))

def strayEpsilon? (g : Grammar) : Option GrammarError :=
  g.rules.findSome? fun (left, productions) ↦
    if !g.isStart left && productions.contains Production.epsilon then
      some (.malformed left .epsilonBesideStart)
    else none

def usedEpsilon? (g : Grammar) : Option GrammarError :=
  g.start?.bind fun start ↦
    if (g.productionsOf start).contains Production.epsilon && g.mentions start then
      some (.malformed start .epsilonOfUsedStart)
    else none

def unitLoop? (g : Grammar) : Option GrammarError :=
  g.names.findSome? fun name ↦
    if (g.unitReachable name).contains name then some (.divergent name .unitLoop) else none

/-- Other non-terminals may derive nothing: they lose all their productions. -/
def barrenStart? (g : Grammar) : Option GrammarError :=
  g.start?.bind fun start ↦
    if g.productionsOf start ≠ [] && !g.productive.contains start then
      some (.divergent start .barrenStart)
    else none

/-- The first reason why a valid grammar cannot be brought into Greibach normal form. -/
def greibachObstacle? (g : Grammar) : Option GrammarError :=
  g.strayEpsilon? <|> g.usedEpsilon? <|> g.unitLoop? <|> g.barrenStart?

/-! ## Going forward -/

/-- Expands those of some productions that start with a given non-terminal. -/
def expandEarlier (g : Grammar) (productions : List Production) (earlier : Name) :
    List Production :=
  (productions.flatMap fun p ↦
    if p.leading? = some earlier then p.replaceFirst (g.productionsOf earlier)
    else [p]).eraseDups

/-- The state of the way forward. -/
structure Forward where
  grammar : Grammar
  fresh : FreshNames := {}
  /-- The left-recursive non-terminals with their tails, in the order of creation. -/
  tails : List (Name × Name) := []

/-- The base of the names minted for tails. -/
def tailBase : Name := "T"

/-- Moves the immediate left recursion of a non-terminal into a tail, if there is any. -/
def Forward.removeLeftRecursion (state : Forward) (current : Name) :
    Except GrammarError Forward := do
  let g := state.grammar
  let productions := g.productionsOf current
  let recursive := productions.filter (·.leading? = some current)
  let base := productions.filter (·.leading? ≠ some current)
  if recursive = [] then return state
  let (tail, fresh) := state.fresh.mint tailBase g.names
  let symbol := Symbol.nonTerminal tail
  let rest := recursive.map (·.drop 1)
  let g := g.modify current fun _ ↦ (base.flatMap (Production.withTail symbol)).eraseDups
  let g ← g.insertFresh tail (rest.flatMap (Production.withTail symbol)).eraseDups
  return ⟨g, fresh, state.tails ++ [(current, tail)]⟩

/-- Takes the non-terminals in order, given those already taken. -/
def Forward.run (state : Forward) (earlier : List Name) : List Name → Except GrammarError Forward
  | [] => .ok state
  | current :: later => do
    let g := state.grammar
    let productions := earlier.foldl g.expandEarlier (g.productionsOf current)
    let expanded := { state with grammar := g.modify current fun _ ↦ productions }
    let state ← expanded.removeLeftRecursion current
    state.run (earlier ++ [current]) later

def forward (g : Grammar) : Except GrammarError Forward :=
  Forward.run { grammar := g } [] g.names

/-! ## Going backward -/

/-- Expands the productions of a non-terminal that start with any non-terminal. -/
def expandLeading (g : Grammar) (current : Name) : Grammar :=
  g.modify current fun productions ↦
    (productions.flatMap fun p ↦
      match p.leading? with
      | some lead => p.replaceFirst (g.productionsOf lead)
      | none => [p]).eraseDups

/-- The order of the way back: the declared non-terminals from the last to the first, then the
tails. -/
def Forward.wayBack (state : Forward) (declared : List Name) : List Name :=
  declared.reverse ++ state.tails.map Prod.snd

def toGreibach (g : Grammar) : Except GrammarError Grammar := do
  g.validate
  match g.greibachObstacle? with
  | some error => .error error
  | none =>
    let state ← g.forward
    return (state.wayBack g.names).foldl expandLeading state.grammar

end Grammar

end ContextFree
