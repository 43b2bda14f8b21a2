import ContextFree.Chomsky
import ContextFree.Greibach
import ContextFree.Text.Quoted

/-!
# What the changes of form report

A change of form is a function of the grammar and says nothing by itself.  What it has to report is
a second function of the same grammar, a list of messages in the order of the work.  A change that
fails reports what was done before the failure.
-/

namespace ContextFree

inductive LogLevel where
  | error
  | warn
  | info
  | debug
  | trace
deriving DecidableEq, Repr

namespace LogLevel

def name : LogLevel → String
  | error => "ERROR"
  | warn => "WARN"
  | info => "INFO"
  | debug => "DEBUG"
  | trace => "TRACE"

/-- The place of a level from the gravest on. -/
def rank : LogLevel → Nat
  | error => 1
  | warn => 2
  | info => 3
  | debug => 4
  | trace => 5

end LogLevel

/-- The part of the program that a message comes from. -/
inductive LogSource where
  | commandLine
  | nullFree
  | unitFree
  | binary
  | isolated
  | chomsky
  | greibach
deriving DecidableEq, Repr

/-- The path that names a source in the log. -/
def LogSource.path : LogSource → String
  | commandLine => "normal_form_helper"
  | nullFree => "normal_form_helper::grammar::eliminate_null"
  | unitFree => "normal_form_helper::grammar::eliminate_unit"
  | binary => "normal_form_helper::grammar::binarize"
  | isolated => "normal_form_helper::grammar::isolate_terminals"
  | chomsky => "normal_form_helper::grammar::cnf"
  | greibach => "normal_form_helper::grammar::gnf"

structure LogEntry where
  level : LogLevel
  source : LogSource
  text : String
deriving DecidableEq, Repr

/-- The level and the text of a message. -/
def LogEntry.summary (entry : LogEntry) : String :=
  entry.level.name ++ " " ++ entry.text

namespace Grammar

/-- What a size report says of a grammar with some new non-terminals. -/
def sizeReport (form : String) (g : Grammar) (freshCount : Nat) : String :=
  form ++ " has " ++ toString g.productionCount ++ " productions, " ++
    toString g.names.length ++ " non-terminals (" ++ toString freshCount ++ " fresh)"

/-- What removing empty productions reports of one production. -/
def nullLogOf (isStart : Bool) (nullable : List Name) (left : Name) (p : Production) :
    List LogEntry :=
  if p = Production.epsilon ∧ isStart = false then
    [⟨.trace, .nullFree, "Dropping " ++ left ++ " -> " ++ epsilonName⟩]
  else
    let shortened := nullable.filter fun name ↦
      p.contains (.nonTerminal name) && p.erase (.nonTerminal name) ≠ []
    shortened.map fun name ↦ ⟨.trace, .nullFree, "Adding " ++ left ++ " without " ++ name⟩

def eliminateNullLog (g : Grammar) (nullable : List Name) : List LogEntry :=
  match g.validate with
  | .error _ => []
  | .ok () =>
    let nullable := nullable.eraseDups
    ⟨.debug, .nullFree,
        "Removing " ++ epsilonName ++ "-productions of " ++ Text.quotedSet nullable⟩ ::
      g.rules.flatMap fun (left, productions) ↦
        productions.flatMap (nullLogOf (g.isStart left) nullable left)

def eliminateUnitsLog (g : Grammar) : List LogEntry :=
  match g.validate, g.unitCycle? with
  | .ok (), none =>
    ⟨.debug, .unitFree, "Removing unit productions"⟩ ::
      g.rules.flatMap fun (left, productions) ↦
        (productions.filterMap Production.unitTarget?).map fun target ↦
          ⟨.trace, .unitFree, "Inlining " ++ target ++ " into " ++ left⟩
  | _, _ => []

def binarizeLog (g : Grammar) : List LogEntry :=
  match g.validate with
  | .error _ => []
  | .ok () =>
    ⟨.debug, .binary, "Breaking long productions"⟩ ::
      g.rules.flatMap fun (left, productions) ↦
        (productions.filter (2 < ·.length)).map fun p ↦
          ⟨.trace, .binary,
            "Splitting " ++ left ++ " production of length " ++ toString p.length⟩

def isolateTerminalsLog (g : Grammar) (fresh : FreshNames) : List LogEntry :=
  match g.validate with
  | .error _ => []
  | .ok () =>
    let table := (TerminalTable.ofTerminals g.names fresh g.mixedTerminals).1
    ⟨.debug, .isolated, "Isolating terminals in mixed productions"⟩ ::
      table.map fun (terminal, name) ↦ ⟨.trace, .isolated, name ++ " -> " ++ terminal⟩

/-- What is said of a result of the conversion to Chomsky normal form. -/
def chomskyReport (g result : Grammar) : List LogEntry :=
  ⟨.info, .chomsky, result.sizeReport "CNF" (result.names.length - g.names.length)⟩ ::
    if result.isChomsky then []
    else [⟨.warn, .chomsky,
      "Result is not in CNF: unit productions are left after a single pass"⟩]

def toChomskyLog (g : Grammar) : List LogEntry :=
  g.eliminateNullLog g.nullable ++
    match g.eliminateNull g.nullable with
    | .error _ => []
    | .ok nullFree =>
      nullFree.eliminateUnitsLog ++
        match nullFree.eliminateUnits with
        | .error _ => []
        | .ok unitFree =>
          unitFree.binarizeLog ++
            match unitFree.binarize {} with
            | .error _ => []
            | .ok (binary, fresh) =>
              binary.isolateTerminalsLog fresh ++
                match binary.isolateTerminals fresh with
                | .error _ => []
                | .ok (result, _) => g.chomskyReport result

/-- What the way forward reports: the left recursion it removes. -/
def forwardLog (state : Forward) : List LogEntry :=
  state.tails.map fun (name, tail) ↦
    ⟨.debug, .greibach, "Eliminating left recursion of " ++ name ++ " through " ++ tail⟩

/-- What the way back reports: the expansions it makes. -/
def backwardLog (state : Forward) (declared : List Name) : List LogEntry :=
  (state.wayBack declared).flatMap fun current ↦
    ((state.grammar.productionsOf current).filterMap Production.leading?).map fun lead ↦
      ⟨.trace, .greibach, "Expanding leading " ++ lead ++ " of " ++ current⟩

def toGreibachLog (g : Grammar) : List LogEntry :=
  match g.validate, g.greibachObstacle? with
  | .ok (), none =>
    ⟨.debug, .greibach, "Converting to GNF"⟩ ::
      match g.forward, g.toGreibach with
      | .ok state, .ok result =>
        forwardLog state ++ backwardLog state g.names ++
          [⟨.info, .greibach, result.sizeReport "GNF" state.tails.length⟩]
      | _, _ => []
  | _, _ => []

end Grammar

end ContextFree
