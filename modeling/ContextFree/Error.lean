import ContextFree.Json.Fault
import ContextFree.Symbol

/-!
# Errors

Reading a grammar or changing its form fails for one of the causes below.  The wording of a cause is
its `message`; nothing else in the library spells it out.
-/

namespace ContextFree

/-- What is wrong with a line of a written grammar. -/
inductive LineFault where
  | manyArrows
  | emptyLeft
  | spacedLeft
  | noLeft
  | noSeparator
  | emptyAlternative
deriving DecidableEq, Repr

def LineFault.message : LineFault → String
  | manyArrows => "too many \"->\""
  | emptyLeft => "empty left side"
  | spacedLeft => "left side contains whitespace"
  | noLeft => "cannot find left side"
  | noSeparator => "expected \"|\" or \"->\""
  | emptyAlternative => "empty alternative"

/-- What is wrong with the productions of a non-terminal. -/
inductive ProductionFault where
  | empty
  | epsilonNotAlone
  | undeclared (name : Name)
  | epsilonBesideStart
  | epsilonOfUsedStart
deriving DecidableEq, Repr

def ProductionFault.message : ProductionFault → String
  | empty => "empty production, write λ instead"
  | epsilonNotAlone => "λ must be the only symbol of its production"
  | undeclared name => "undeclared non-terminal " ++ name
  | epsilonBesideStart => "only the start symbol may derive λ"
  | epsilonOfUsedStart => "the start symbol derives λ and occurs on a right side"

/-- Why a grammar has no normal form of the kind asked for. -/
inductive Divergence where
  | unitCycle (others : List Name)
  | unitLoop
  | barrenStart
deriving DecidableEq, Repr

def Divergence.message : Divergence → String
  | unitCycle others => "unit productions cycle through " ++ ", ".intercalate others
  | unitLoop => "unit productions lead back to it"
  | barrenStart =>
    "the start symbol derives no terminal string, so its left recursion has no base"

inductive GrammarError where
  | badLine (number : Nat) (fault : LineFault)
  | badJson (failure : Json.Failure)
  | malformed (name : Name) (fault : ProductionFault)
  | nameCollision (name : Name)
  | divergent (name : Name) (cause : Divergence)
deriving DecidableEq, Repr

def GrammarError.message : GrammarError → String
  | badLine number fault => "Line " ++ toString number ++ ": " ++ fault.message
  | badJson failure => "invalid JSON grammar: " ++ failure.message
  | malformed name fault => "malformed production of " ++ name ++ ": " ++ fault.message
  | nameCollision name => "fresh non-terminal " ++ name ++ " is already declared"
  | divergent name cause => "cannot normalize " ++ name ++ ": " ++ cause.message

end ContextFree
