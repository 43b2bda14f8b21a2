/-!
# Symbols and right-hand sides

A right-hand side is a list of symbols, each a terminal, a non-terminal or the mark of the empty
string.  The kind of a symbol is part of it, so a terminal may carry the name of a non-terminal, or
a spelling of the empty string, and stays a terminal.  Only in written text do names decide the
kind: `Symbol.ofToken` is that rule.
-/

namespace ContextFree

/-- Names of terminals and non-terminals; any text, the empty one included. -/
abbrev Name := String

/-- The written form of the empty string. -/
def epsilonName : Name := "λ"

/-- The spellings a reader takes for the empty string. -/
def epsilonSpellings : List Name := [epsilonName, "ε", "ϵ"]

inductive Symbol where
  | terminal (name : Name)
  | nonTerminal (name : Name)
  | epsilon
deriving DecidableEq, Repr, Inhabited

namespace Symbol

def name : Symbol → Name
  | terminal name => name
  | nonTerminal name => name
  | epsilon => epsilonName

def nonTerminal? : Symbol → Option Name
  | nonTerminal name => some name
  | _ => none

def terminal? : Symbol → Option Name
  | terminal name => some name
  | _ => none

/-- What a written token stands for, given the declared non-terminals.  A spelling of the empty
string is never a name, not even where a rule is declared under it. -/
def ofToken (declared : List Name) (token : Name) : Symbol :=
  if token ∈ epsilonSpellings then epsilon
  else if token ∈ declared then nonTerminal token
  else terminal token

@[simp] theorem nonTerminal?_eq_some_iff {s : Symbol} {n : Name} :
    s.nonTerminal? = some n ↔ s = nonTerminal n := by
  cases s <;> simp [nonTerminal?]

@[simp] theorem terminal?_eq_some_iff {s : Symbol} {t : Name} :
    s.terminal? = some t ↔ s = terminal t := by
  cases s <;> simp [terminal?]

end Symbol

/-- The right-hand side of a rule. -/
abbrev Production := List Symbol

namespace Production

/-- The one written form of an empty right-hand side. -/
def epsilon : Production := [Symbol.epsilon]

/-- The names of the non-terminals, from left to right, repetitions included. -/
def nonTerminals (p : Production) : List Name :=
  p.filterMap Symbol.nonTerminal?

/-- The names of the terminals, from left to right, repetitions included. -/
def terminals (p : Production) : List Name :=
  p.filterMap Symbol.terminal?

/-- The non-terminal that a right-hand side starts with. -/
def leading? : Production → Option Name
  | Symbol.nonTerminal name :: _ => some name
  | _ => none

/-- The target of a unit production: a right-hand side of one non-terminal and nothing else. -/
def unitTarget? : Production → Option Name
  | [Symbol.nonTerminal name] => some name
  | _ => none

@[simp] theorem mem_nonTerminals {p : Production} {n : Name} :
    n ∈ p.nonTerminals ↔ Symbol.nonTerminal n ∈ p := by
  simp [nonTerminals, List.mem_filterMap]

@[simp] theorem mem_terminals {p : Production} {t : Name} :
    t ∈ p.terminals ↔ Symbol.terminal t ∈ p := by
  simp [terminals, List.mem_filterMap]

theorem leading?_eq_some_iff {p : Production} {n : Name} :
    p.leading? = some n ↔ ∃ rest, p = Symbol.nonTerminal n :: rest := by
  unfold leading?
  split <;> simp_all

theorem unitTarget?_eq_some_iff {p : Production} {n : Name} :
    p.unitTarget? = some n ↔ p = [Symbol.nonTerminal n] := by
  unfold unitTarget?
  split <;> simp_all

end Production

end ContextFree
