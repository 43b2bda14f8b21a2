import ContextFree.Grammar.Basic

/-!
# Showing a grammar

A rule is shown as its left-hand side and the names of its symbols, so a terminal and a non-terminal
of one name look alike.

In plain text the first production of a rule follows an arrow and each other one stands on a line of
its own behind a bar; all arrows of a grammar are in one column, and rules without productions are
left out.  In LaTeX a rule is one line of an array, and a rule without productions an empty line.
How LaTeX shows a name is for a function to say; `texName` does so where none is given.
-/

namespace ContextFree

/-- A rule reduced to names. -/
structure ShownRule where
  left : Name
  rights : List (List Name)
deriving DecidableEq, Repr

namespace ShownRule

def ofRule (rule : Rule) : ShownRule :=
  ⟨rule.1, rule.2.map (·.map Symbol.name)⟩

/-! ## Plain text -/

def spaces (width : Nat) : List Char :=
  List.replicate width ' '

/-- The names of a production with single spaces between them. -/
def spaced (right : List Name) : List Char :=
  List.intercalate [' '] (right.map String.toList)

/-- The line of the first production, its left-hand side set to the right of a column. -/
def firstLine (width : Nat) (left : Name) (right : List Name) : List Char :=
  spaces (width - left.length) ++ left.toList ++ [' ', '-', '>', ' '] ++ spaced right

/-- The line of a further production. -/
def furtherLine (width : Nat) (right : List Name) : List Char :=
  spaces width ++ [' ', ' ', '|', ' '] ++ spaced right

def plainLines (width : Nat) (rule : ShownRule) : List (List Char) :=
  match rule.rights with
  | [] => []
  | right :: rights => firstLine width rule.left right :: rights.map (furtherLine width)

/-- A rule in plain text, with its arrow behind a column of the given width. -/
def plaintext (rule : ShownRule) (width : Nat) : String :=
  String.ofList (List.intercalate ['\n'] (rule.plainLines width))

/-! ## LaTeX -/

/-- Makes every character plain that LaTeX would read as a command.  Two hyphens in a row are kept
apart. -/
def texPlain : List Char → List Char
  | [] => []
  | '-' :: '-' :: text => "-\x7b\x7d".toList ++ texPlain ('-' :: text)
  | c :: text =>
    let plain :=
      match c with
      | '&' | '%' | '$' | '#' | '_' | '\x7b' | '\x7d' => ['\\', c]
      | '[' => "\x7b[\x7d".toList
      | ']' => "\x7b]\x7d".toList
      | '~' => "\\textasciitilde\x7b\x7d".toList
      | '^' => "\\textasciicircum\x7b\x7d".toList
      | '<' => "\\textless\x7b\x7d".toList
      | '>' => "\\textgreater\x7b\x7d".toList
      | '!' => "!\x7b\x7d".toList
      | '\\' => "\\textbackslash\x7b\x7d".toList
      | c => [c]
    plain ++ texPlain text

/-- A name with nothing in it that LaTeX would read as a command. -/
def texName (name : Name) : String :=
  String.ofList (texPlain name.toList)

/-- Writes every `λ` as a command. -/
def texLambda (text : List Char) : List Char :=
  text.flatMap fun c ↦ if c = 'λ' then "\\lambda".toList else [c]

/-- The names of a production with forced spaces between them. -/
def texRight (tex : Name → String) (right : List Name) : List Char :=
  List.intercalate " \\ ".toList (right.map fun name ↦ (tex name).toList)

/-- A rule in LaTeX, its arrow in a column of its own if the rule is part of an array. -/
def latex (rule : ShownRule) (inArray : Bool) (tex : Name → String := texName) : String :=
  match rule.rights with
  | [] => ""
  | rights =>
    let arrow := if inArray then " & \\rightarrow &" else " \\rightarrow "
    let right := List.intercalate " \\mid ".toList (rights.map (texRight tex))
    String.ofList (texLambda ((tex rule.left).toList ++ arrow.toList ++ right))

end ShownRule

namespace Grammar

def shown (g : Grammar) : List ShownRule :=
  g.rules.map ShownRule.ofRule

/-- The grammar in plain text. -/
def plaintext (g : Grammar) : String :=
  let rules := g.shown.filter (·.rights ≠ [])
  let width := (rules.map (·.left.length)).foldl max 0
  String.ofList (List.intercalate ['\n'] (rules.flatMap (·.plainLines width)))

/-- The grammar as a LaTeX array in a displayed formula. -/
def latex (g : Grammar) (tex : Name → String := ShownRule.texName) : String :=
  let rules := g.shown.map (·.latex true tex)
  "\\\\\n".intercalate
    (["\\[\\begin\x7barray\x7d\x7bcll\x7d"] ++ rules ++ ["\\end\x7barray\x7d\\]"])

end Grammar

end ContextFree
