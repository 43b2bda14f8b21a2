import ContextFree.Grammar.Validity
import ContextFree.Text.Split

/-!
# Reading a grammar from text

A line holds a left-hand side, an arrow and alternatives with bars between them; a line that starts
with a bar adds alternatives to the left-hand side before it.  Blank lines are skipped, and lines
are numbered from one, blank ones included.  The tokens of an alternative stand between blanks.
Which of them are non-terminals is decided at the end: those with a line of their own anywhere in
the text.

The first line with a faulty head is reported before any line with an empty alternative.
-/

namespace ContextFree

/-- A line taken apart. -/
structure Clause where
  number : Nat
  left : Name
  alternatives : List (List Name)
deriving DecidableEq, Repr

namespace Clause

/-- A left-hand side is one word. -/
def readLeft (text : List Char) : Except LineFault Name :=
  match Text.words text with
  | [] => .error .emptyLeft
  | [name] => .ok (String.ofList name)
  | _ => .error .spacedLeft

/-- The left-hand side that a line adds to, and the text of the alternatives it adds. -/
def readHead (previous : Option Name) (line : List Char) :
    Except LineFault (Name × List Char) :=
  match Text.cutArrow? line with
  | some (before, after) =>
    if (Text.cutArrow? after).isSome then .error .manyArrows
    else (readLeft before).map fun left ↦ (left, after)
  | none =>
    match previous, line.dropWhile Text.isBlank with
    | none, _ => .error .noLeft
    | some left, '|' :: text => .ok (left, text)
    | some _, _ => .error .noSeparator

def readAlternatives (text : List Char) : List (List Name) :=
  (Text.pieces (· == '|') text).map fun alternative ↦
    (Text.words alternative).map String.ofList

/-- Reads the lines from a given number on, after a given left-hand side. -/
def readLines (previous : Option Name) (number : Nat) :
    List (List Char) → Except GrammarError (List Clause)
  | [] => .ok []
  | line :: lines =>
    if line.all Text.isBlank then readLines previous (number + 1) lines
    else
      match readHead previous line with
      | .error fault => .error (.badLine number fault)
      | .ok (left, text) =>
        (readLines (some left) (number + 1) lines).map (⟨number, left, readAlternatives text⟩ :: ·)

def emptyAlternative? (clause : Clause) : Option GrammarError :=
  if clause.alternatives.contains [] then some (.badLine clause.number .emptyAlternative) else none

end Clause

namespace Grammar

/-- The grammar of some clauses: the alternatives of each left-hand side, in order. -/
def ofClauses (clauses : List Clause) : Grammar :=
  let declared := clauses.map Clause.left
  ofNames declared fun name ↦
    (clauses.filter (·.left = name)).flatMap fun clause ↦
      clause.alternatives.map (·.map (Symbol.ofToken declared))

/-- Reads a grammar. -/
def ofText (text : String) : Except GrammarError Grammar := do
  let clauses ← Clause.readLines none 1 (Text.pieces (· == '\n') text.toList)
  match clauses.findSome? Clause.emptyAlternative? with
  | some error => .error error
  | none =>
    let g := ofClauses clauses
    g.validate
    return g

end Grammar

end ContextFree
