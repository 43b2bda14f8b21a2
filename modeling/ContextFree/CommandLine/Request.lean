/-!
# What the command line asks for

The arguments come in groups: changes of form, then at least one output, then options, then at most
one path.  A word ends its group when it is no word of it.  Whatever does not fit asks for the help
text, and so does a help option wherever the options stand.
-/

namespace ContextFree.CommandLine

/-- A change of form. -/
inductive Action where
  | chomsky
  | greibach
deriving DecidableEq, Repr

def Action.ofWord? : String → Option Action
  | "cnf" => some chomsky
  | "gnf" => some greibach
  | _ => none

inductive Output where
  | productions
  | nullable
deriving DecidableEq, Repr

def Output.ofWord? : String → Option Output
  | "prod" => some productions
  | "nullable" => some nullable
  | _ => none

/-- How outputs are written. -/
inductive Style where
  | plain
  | latex
  | json
deriving DecidableEq, Repr

/-- The effect of an option. -/
inductive Choice where
  | help
  | style (style : Style)
  | jsonInput
deriving DecidableEq, Repr

def Choice.ofWord? : String → Option Choice
  | "-h" => some help
  | "--help" => some help
  | "-l" => some (style .latex)
  | "-j" => some (style .json)
  | "-J" => some jsonInput
  | _ => none

/-- A grammar to read, to change and to show. -/
structure Job where
  actions : List Action
  outputs : List Output
  style : Style := .plain
  jsonInput : Bool := false
  /-- The file to read; standard input if there is none. -/
  path? : Option String := none
deriving DecidableEq, Repr

inductive Request where
  | help
  | job (job : Job)
deriving DecidableEq, Repr

/-- The longest initial run of words that are known, each read, and the words after it. -/
def takeKnown {α : Type} (ofWord? : String → Option α) : List String → List α × List String
  | [] => ([], [])
  | word :: words =>
    match ofWord? word with
    | none => ([], word :: words)
    | some known =>
      let (others, rest) := takeKnown ofWord? words
      (known :: others, rest)

/-- The last style chosen, plain text if none is. -/
def lastStyle (choices : List Choice) : Style :=
  choices.foldl (fun style choice ↦ match choice with
    | .style chosen => chosen
    | _ => style) .plain

def Request.ofArguments (arguments : List String) : Request :=
  let (actions, rest) := takeKnown Action.ofWord? arguments
  let (outputs, rest) := takeKnown Output.ofWord? rest
  let (choices, rest) := takeKnown Choice.ofWord? rest
  if .help ∈ choices ∨ outputs = [] ∨ 1 < rest.length then .help
  else .job ⟨actions, outputs, lastStyle choices, .jsonInput ∈ choices, rest.head?⟩

end ContextFree.CommandLine
