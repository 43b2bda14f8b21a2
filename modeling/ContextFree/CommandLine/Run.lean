import ContextFree.CommandLine.Request
import ContextFree.Grammar.Json
import ContextFree.Grammar.Rendering
import ContextFree.Grammar.Reading
import ContextFree.Log

/-!
# Running the command line

A run reads its input whole, changes the form of the grammar action by action, and writes every
output or, if anything fails, none.  The input is given as the bytes found or as the reason why
there are none, so a run is a function of the arguments, the input, the level of the log and the
library that words some of its texts.
-/

namespace ContextFree.CommandLine

/-- Why the input could not be read. -/
inductive InputFault where
  | noSuchFile
  | notDirectory
  | isDirectory
  | nameTooLong
  | notText
  | other (description : String)
deriving DecidableEq, Repr

def InputFault.message : InputFault → String
  | noSuchFile => "No such file or directory (os error 2)"
  | notDirectory => "Not a directory (os error 20)"
  | isDirectory => "Is a directory (os error 21)"
  | nameTooLong => "File name too long (os error 36)"
  | notText => "stream did not contain valid UTF-8"
  | other description => description

/-- Why a run fails. -/
inductive Failure where
  | input (fault : InputFault)
  | grammar (error : GrammarError)
deriving DecidableEq, Repr

def Failure.message : Failure → String
  | input fault => fault.message
  | grammar error => error.message

/-- What a run leaves behind. -/
structure Outcome where
  exitCode : Nat := 0
  stdout : String := ""
  stderr : String := ""
deriving DecidableEq, Repr

/-- What the texts of a run take from other libraries, which may word it as they like. -/
structure Library where
  /-- A name as LaTeX shows it. -/
  tex : Name → String := ShownRule.texName
  /-- Where a text fails that should be a grammar in JSON, if messages are to say so. -/
  place? : String → Option Json.Place := fun _ ↦ none

def helpText : String :=
  "Usage: normal-form-helper [actions] outputs [options] [grammar file]\n" ++
  "actions:\n" ++
  "  cnf: Convert to Chomsky normal form\n" ++
  "  gnf: Convert to Greibach normal form\n" ++
  "outputs:\n" ++
  "  prod: Productions\n" ++
  "  nullable: Non-terminals with a λ-production\n" ++
  "options:\n" ++
  "  -h: Print this help\n" ++
  "  -l: Print in LaTeX format\n" ++
  "  -j: Print in JSON format\n" ++
  "  -J: Read the grammar as JSON\n"

namespace Action

def apply : Action → Grammar → Except GrammarError Grammar
  | chomsky, g => g.toChomsky
  | greibach, g => g.toGreibach

def log : Action → Grammar → List LogEntry
  | chomsky, g => g.toChomskyLog
  | greibach, g => g.toGreibachLog

end Action

/-- An output of a grammar.  The list of nullable non-terminals has no LaTeX form and is written
plainly in its place. -/
def Output.render (library : Library) : Output → Style → Grammar → String
  | productions, .plain, g => g.plaintext
  | productions, .latex, g => g.latex library.tex
  | productions, .json, g => g.toJson
  | nullable, .json, g => String.ofList (Json.writeList (g.nullable.map Json.writeString))
  | nullable, _, g => ", ".intercalate g.nullable

/-! ## The log -/

/-- The level up to which messages are shown, from its name in any case.  Without a setting, or with
an empty one, it is that of errors.  Nothing is shown under `off`, nor under a setting for single
parts of the program, which is not understood here. -/
def logLevel? (setting? : Option String) : Option LogLevel :=
  match setting?.getD "" with
  | "" => some .error
  | setting =>
    [LogLevel.error, .warn, .info, .debug, .trace].find? fun level ↦
      level.name == setting.toUpper

/-- A message as a line of the log.  Line ends within the message are indented. -/
def logLine (entry : LogEntry) : String :=
  let level := entry.level.name ++ (if entry.level.name.length < 5 then " " else "")
  let text := entry.text.toList.flatMap fun c ↦ if c = '\n' then "\n    ".toList else [c]
  "[" ++ level ++ " " ++ entry.source.path ++ "] " ++ String.ofList text ++ "\n"

def logText (level? : Option LogLevel) (entries : List LogEntry) : String :=
  match level? with
  | none => ""
  | some level => String.join ((entries.filter (·.level.rank ≤ level.rank)).map logLine)

/-! ## Jobs -/

namespace Job

/-- The text of the input. -/
def decode (input : Except InputFault ByteArray) : Except Failure String :=
  match input with
  | .error fault => .error (.input fault)
  | .ok bytes =>
    match String.fromUTF8? bytes with
    | some text => .ok text
    | none => .error (.input .notText)

/-- Reads a grammar in the format that the job names. -/
def readGrammar (job : Job) (library : Library) (text : String) : Except GrammarError Grammar :=
  if job.jsonInput then Grammar.ofJson text library.place? else Grammar.ofText text

/-- The grammar after all actions, from left to right. -/
def convert (job : Job) (g : Grammar) : Except GrammarError Grammar :=
  job.actions.foldlM (fun g action ↦ action.apply g) g

/-- All outputs, each with a line end. -/
def render (job : Job) (library : Library) (g : Grammar) : String :=
  String.join (job.outputs.map fun output ↦ output.render library job.style g ++ "\n")

/-- The standard output of the job. -/
def result (job : Job) (library : Library) (input : Except InputFault ByteArray) :
    Except Failure String := do
  let text ← decode input
  let g ← (job.readGrammar library text).mapError .grammar
  let g ← (job.convert g).mapError .grammar
  return job.render library g

/-- What the actions report, up to the first that fails. -/
def actionsLog : List Action → Grammar → List LogEntry
  | [], _ => []
  | action :: actions, g =>
    action.log g ++
      match action.apply g with
      | .ok g => actionsLog actions g
      | .error _ => []

/-- What the job reports. -/
def log (job : Job) (library : Library) (input : Except InputFault ByteArray) : List LogEntry :=
  match (decode input).bind fun text ↦ (job.readGrammar library text).mapError .grammar with
  | .error _ => []
  | .ok g =>
    ⟨.debug, .commandLine, "Read " ++ toString g.names.length ++ " non-terminals, " ++
      toString g.productionCount ++ " productions"⟩ :: actionsLog job.actions g

/-- Runs the job with messages up to a level. -/
def run (job : Job) (library : Library) (level? : Option LogLevel)
    (input : Except InputFault ByteArray) : Outcome :=
  let log := logText level? (job.log library input)
  match job.result library input with
  | .ok stdout => { stdout, stderr := log }
  | .error failure => { exitCode := 1, stderr := log ++ "error: " ++ failure.message ++ "\n" }

end Job

/-- Runs the command line.  The input is asked for only if there is a job, by the path of its file
or by none for standard input. -/
def run (arguments : List String) (level? : Option LogLevel)
    (input : Option String → Except InputFault ByteArray) (library : Library := {}) : Outcome :=
  match Request.ofArguments arguments with
  | .help => { stdout := helpText }
  | .job job => job.run library level? (input job.path?)

end ContextFree.CommandLine
