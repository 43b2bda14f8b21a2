import Mathlib.Data.List.Induction
import ContextFree.Conversion
import ContextFree.Proofs.CommandLine.Log
import ContextFree.Proofs.Validity

/-!
# The outcome of a command line

Arguments that name actions, outputs, options and a path in this order ask for the job with just
these parts, so the groups are told apart without looking ahead.  Such a job either fails, and then
says why and writes nothing else, or it writes every output of the grammar that the actions arrive
at.  What went wrong first is found stage by stage: the input, its text, the reader, the actions
from left to right.  The log adds nothing to this as long as it is left at its level without a
setting.  How LaTeX shows a name and where a text in JSON fails may be said by any library.

With the productions in JSON as the only output, the command line tells what the conversions of
texts to JSON tell: the grammar, or the message of the error.
-/

namespace ContextFree.CommandLine

/-! ## Arguments in groups -/

section Groups

variable {α β : Type} {ofWord? : String → Option α} {word : β → String} {known : β → α}

/-- A group ends at the first word that is none of its own. -/
theorem takeKnown_map_append (hword : ∀ b, ofWord? (word b) = some (known b)) {rest : List String}
    (hrest : ∀ first ∈ rest.head?, ofWord? first = none) (items : List β) :
    takeKnown ofWord? (items.map word ++ rest) = (items.map known, rest) := by
  induction items with
  | nil =>
    cases rest with
    | nil => rfl
    | cons first rest =>
      have hfirst : ofWord? first = none := hrest first rfl
      rw [List.map_nil, List.nil_append, takeKnown, hfirst]
      rfl
  | cons item items ih =>
    rw [List.map_cons, List.cons_append, takeKnown, hword, ih]
    rfl

/-- The words of a group come first, if it has any. -/
theorem forall_head?_map_append {holds : String → Prop} {items : List β} {rest : List String}
    (hitems : ∀ b, holds (word b)) (hrest : items = [] → ∀ first ∈ rest.head?, holds first) :
    ∀ first ∈ (items.map word ++ rest).head?, holds first := by
  cases items with
  | nil => exact hrest rfl
  | cons item items =>
    intro first hfirst
    obtain rfl : word item = first := Option.some.inj hfirst
    exact hitems item

end Groups

def Action.word : Action → String
  | chomsky => "cnf"
  | greibach => "gnf"

def Output.word : Output → String
  | productions => "prod"
  | nullable => "nullable"

/-- An option that leaves the job to be done. -/
inductive JobOption where
  | latex
  | json
  | jsonInput
deriving DecidableEq, Repr

namespace JobOption

def word : JobOption → String
  | latex => "-l"
  | json => "-j"
  | jsonInput => "-J"

def choice : JobOption → Choice
  | latex => .style .latex
  | json => .style .json
  | jsonInput => .jsonInput

/-- The style that an option sets. -/
def style? : JobOption → Option Style
  | latex => some .latex
  | json => some .json
  | jsonInput => none

end JobOption

/-- The words that are no paths where a path may stand. -/
def reservedWords : List String :=
  ["prod", "nullable", "-h", "--help", "-l", "-j", "-J"]

/-- Arguments that ask for a job. -/
structure Invocation where
  actions : List Action
  outputs : List Output
  options : List JobOption
  path? : Option String
  outputs_ne_nil : outputs ≠ []
  path_notMem : ∀ path ∈ path?, path ∉ reservedWords

namespace Invocation

/-- The style of the last option that sets one, plain text if there is none. -/
def style (invocation : Invocation) : Style :=
  (invocation.options.filterMap JobOption.style?).getLast?.getD .plain

def arguments (invocation : Invocation) : List String :=
  invocation.actions.map Action.word ++ (invocation.outputs.map Output.word ++
    (invocation.options.map JobOption.word ++ invocation.path?.toList))

/-- The reader that the options choose. -/
def reader (invocation : Invocation) (library : Library) : String → Except GrammarError Grammar :=
  if .jsonInput ∈ invocation.options then (Grammar.ofJson · library.place?) else Grammar.ofText

def job (invocation : Invocation) : Job where
  actions := invocation.actions
  outputs := invocation.outputs
  style := invocation.style
  jsonInput := .jsonInput ∈ invocation.options
  path? := invocation.path?

end Invocation

theorem lastStyle_concat (choices : List Choice) (option : JobOption) :
    lastStyle (choices ++ [option.choice]) = option.style?.getD (lastStyle choices) := by
  rw [lastStyle, List.foldl_append]
  cases option <;> rfl

/-- The style is the last one that an option sets. -/
theorem lastStyle_map_choice (options : List JobOption) :
    lastStyle (options.map JobOption.choice) =
      (options.filterMap JobOption.style?).getLast?.getD .plain := by
  induction options using List.reverseRecOn with
  | nil => rfl
  | append_singleton options option ih =>
    rw [List.map_append, List.map_singleton, lastStyle_concat, ih, List.filterMap_append]
    cases option <;> simp [JobOption.style?]

theorem ofWord?_eq_none_of_notMem {path : String} (hpath : path ∉ reservedWords) :
    Output.ofWord? path = none ∧ Choice.ofWord? path = none := by
  simp only [reservedWords, List.mem_cons, List.not_mem_nil, or_false, not_or] at hpath
  constructor
  · unfold Output.ofWord?
    split <;> simp_all
  · unfold Choice.ofWord?
    split <;> simp_all

theorem jsonInput_mem_map_choice_iff {options : List JobOption} :
    Choice.jsonInput ∈ options.map JobOption.choice ↔ .jsonInput ∈ options := by
  have hchoice : ∀ option : JobOption, option.choice = .jsonInput ↔ option = .jsonInput := by
    intro option
    cases option <;> decide
  simp only [List.mem_map, hchoice, exists_eq_right]

theorem help_notMem_map_choice (options : List JobOption) :
    Choice.help ∉ options.map JobOption.choice := by
  intro hhelp
  obtain ⟨option, -, hsame⟩ := List.mem_map.1 hhelp
  cases option <;> exact Choice.noConfusion hsame

/-- The groups are found again. -/
theorem ofArguments_arguments (invocation : Invocation) :
    Request.ofArguments invocation.arguments = .job invocation.job := by
  obtain ⟨actions, outputs, options, path?, hne, hpath⟩ := invocation
  have hpathWord : ∀ first ∈ path?.toList.head?,
      Output.ofWord? first = none ∧ Choice.ofWord? first = none := by
    intro first hfirst
    rw [Option.head?_toList] at hfirst
    exact ofWord?_eq_none_of_notMem (hpath first hfirst)
  have hoptions : takeKnown Choice.ofWord? (options.map JobOption.word ++ path?.toList) =
      (options.map JobOption.choice, path?.toList) :=
    takeKnown_map_append (fun option ↦ by cases option <;> rfl)
      (fun first hfirst ↦ (hpathWord first hfirst).2) options
  have houtputs : takeKnown Output.ofWord?
      (outputs.map Output.word ++ (options.map JobOption.word ++ path?.toList)) =
        (outputs.map id, options.map JobOption.word ++ path?.toList) := by
    refine takeKnown_map_append (fun output ↦ by cases output <;> rfl) ?_ outputs
    exact forall_head?_map_append (fun option ↦ by cases option <;> rfl)
      fun _ first hfirst ↦ (hpathWord first hfirst).1
  -- There is an output, so the actions end before any path is looked at.
  have hactions : takeKnown Action.ofWord? (actions.map Action.word ++
      (outputs.map Output.word ++ (options.map JobOption.word ++ path?.toList))) =
        (actions.map id, outputs.map Output.word ++
          (options.map JobOption.word ++ path?.toList)) := by
    refine takeKnown_map_append (fun action ↦ by cases action <;> rfl) ?_ actions
    exact forall_head?_map_append (fun output ↦ by cases output <;> rfl) fun hnil ↦ absurd hnil hne
  have hfits : ¬ (.help ∈ options.map JobOption.choice ∨ outputs = [] ∨
      1 < path?.toList.length) := by
    have hlength : path?.toList.length ≤ 1 := by cases path? <;> simp
    simp only [help_notMem_map_choice, hne, false_or, Nat.not_lt, hlength]
  simp only [Request.ofArguments, Invocation.arguments, hactions, houtputs, hoptions, List.map_id,
    if_neg hfits, lastStyle_map_choice, jsonInput_mem_map_choice_iff, Option.head?_toList]
  rfl

/-! ## Stages -/

section Input

variable {input : Except InputFault ByteArray}

/-- Bytes are decoded to the text that they encode. -/
theorem fromUTF8?_eq_some_iff {bytes : ByteArray} {text : String} :
    String.fromUTF8? bytes = some text ↔ bytes = text.toUTF8 := by
  unfold String.fromUTF8?
  constructor
  · intro hdecoded
    split at hdecoded
    · obtain rfl := Option.some.inj hdecoded
      rfl
    · exact nomatch hdecoded
  · rintro rfl
    have hvalid : text.toUTF8.IsValidUTF8 := text.isValidUTF8
    rw [dif_pos hvalid]
    rfl

theorem decode_eq_ok_iff {text : String} :
    Job.decode input = .ok text ↔ input = .ok text.toUTF8 := by
  cases input with
  | error fault => simp [Job.decode]
  | ok bytes =>
    rw [Except.ok.injEq, ← fromUTF8?_eq_some_iff, Job.decode]
    cases String.fromUTF8? bytes <;> simp

theorem decode_eq_error_iff {failure : Failure} : Job.decode input = .error failure ↔
    (∃ fault, input = .error fault ∧ failure = .input fault) ∨
      ∃ bytes, input = .ok bytes ∧ (∀ text : String, bytes ≠ text.toUTF8) ∧
        failure = .input .notText := by
  cases input with
  | error fault => simp [Job.decode, eq_comm]
  | ok bytes =>
    have hnone : (∀ text : String, bytes ≠ text.toUTF8) ↔ String.fromUTF8? bytes = none := by
      simp only [Option.eq_none_iff_forall_ne_some, ne_eq, fromUTF8?_eq_some_iff]
    simp only [Job.decode, Except.ok.injEq, exists_eq_left', hnone]
    cases String.fromUTF8? bytes <;> simp [eq_comm]

theorem mapError_eq_ok_iff {ε ε' α : Type} {f : ε → ε'} {x : Except ε α} {a : α} :
    x.mapError f = .ok a ↔ x = .ok a := by
  cases x with
  | error e => exact ⟨nofun, nofun⟩
  | ok b =>
    exact ⟨fun hsame ↦ congrArg Except.ok (Except.ok.inj hsame),
      fun hsame ↦ congrArg Except.ok (Except.ok.inj hsame)⟩

theorem mapError_eq_error_iff {ε ε' α : Type} {f : ε → ε'} {x : Except ε α} {e' : ε'} :
    x.mapError f = .error e' ↔ ∃ e, x = .error e ∧ f e = e' := by
  constructor
  · intro hfailed
    cases x with
    | error e => exact ⟨e, rfl, Except.error.inj hfailed⟩
    | ok b => exact nomatch hfailed
  · rintro ⟨e, rfl, rfl⟩
    rfl

end Input

/-- The actions lead from the first grammar to the second. -/
inductive Converts : List Action → Grammar → Grammar → Prop
  | nil (g : Grammar) : Converts [] g g
  | cons {action : Action} {actions : List Action} {g h k : Grammar} :
    action.apply g = .ok h → Converts actions h k → Converts (action :: actions) g k

theorem foldlM_apply_eq_ok_iff {actions : List Action} {g k : Grammar} :
    actions.foldlM (fun g action ↦ action.apply g) g = .ok k ↔ Converts actions g k := by
  induction actions generalizing g with
  | nil =>
    rw [List.foldlM_nil, pure_eq_ok_iff]
    constructor
    · rintro rfl
      exact .nil k
    · rintro ⟨⟩
      rfl
  | cons action actions ih =>
    rw [List.foldlM_cons, bind_eq_ok_iff]
    simp only [ih]
    constructor
    · rintro ⟨h, hfirst, hrest⟩
      exact .cons hfirst hrest
    · rintro (_ | ⟨hfirst, hrest⟩)
      exact ⟨_, hfirst, hrest⟩

/-- Some action fails after all before it have succeeded. -/
theorem foldlM_apply_eq_error_iff {actions : List Action} {g : Grammar} {error : GrammarError} :
    actions.foldlM (fun g action ↦ action.apply g) g = .error error ↔
      ∃ before action after k, actions = before ++ action :: after ∧ Converts before g k ∧
        action.apply k = .error error := by
  induction actions generalizing g with
  | nil => simp [pure, Except.pure]
  | cons first actions ih =>
    rw [List.foldlM_cons, bind_eq_error_iff]
    simp only [ih]
    constructor
    · rintro (hfirst | ⟨h, hfirst, before, action, after, k, rfl, hbefore, hfailed⟩)
      · exact ⟨[], first, actions, g, rfl, .nil g, hfirst⟩
      · exact ⟨first :: before, action, after, k, rfl, .cons hfirst hbefore, hfailed⟩
    · rintro ⟨before, action, after, k, hsplit, hbefore, hfailed⟩
      cases hbefore with
      | nil =>
        obtain ⟨rfl, rfl⟩ := List.cons.inj hsplit
        exact .inl hfailed
      | cons hfirst hrest =>
        obtain ⟨rfl, rfl⟩ := List.cons.inj hsplit
        exact .inr ⟨_, hfirst, _, action, after, k, rfl, hrest, hfailed⟩

/-! ## Outputs -/

/-- The text that shows an output.  The nullable non-terminals have no LaTeX form. -/
inductive Output.Shows (library : Library) (g : Grammar) : Output → Style → String → Prop
  | plaintext : Shows library g .productions .plain g.plaintext
  | latex : Shows library g .productions .latex (g.latex library.tex)
  | json : Shows library g .productions .json g.toJson
  | names {style : Style} : style ≠ .json →
    Shows library g .nullable style (", ".intercalate g.nullable)
  | namesJson : Shows library g .nullable .json
    (String.ofList (Json.writeList (g.nullable.map Json.writeString)))

/-- The texts of some outputs, each with a line end. -/
inductive Shown (library : Library) (g : Grammar) (style : Style) : List Output → String → Prop
  | nil : Shown library g style [] ""
  | cons {output : Output} {outputs : List Output} {text rest : String} :
    output.Shows library g style text → Shown library g style outputs rest →
    Shown library g style (output :: outputs) (text ++ "\n" ++ rest)

section Outputs

variable {library : Library} {g : Grammar}

theorem Output.shows_iff {output : Output} {style : Style} {text : String} :
    output.Shows library g style text ↔ text = output.render library style g := by
  constructor
  · intro hshows
    cases hshows with
    | names hstyle => cases style <;> first | rfl | exact absurd rfl hstyle
    | _ => rfl
  · rintro rfl
    cases output <;> cases style
    · exact .plaintext
    · exact .latex
    · exact .json
    · exact .names (by decide)
    · exact .names (by decide)
    · exact .namesJson

theorem shown_iff {style : Style} {outputs : List Output} {text : String} :
    Shown library g style outputs text ↔
      text = String.join (outputs.map fun output ↦ output.render library style g ++ "\n") := by
  induction outputs generalizing text with
  | nil =>
    constructor
    · rintro ⟨⟩
      rfl
    · rintro rfl
      exact .nil
  | cons output outputs ih =>
    rw [List.map_cons, String.join_cons]
    constructor
    · rintro (_ | ⟨hfirst, hrest⟩)
      rw [Output.shows_iff.1 hfirst, ih.1 hrest]
    · rintro rfl
      exact .cons (Output.shows_iff.2 rfl) (ih.2 rfl)

end Outputs

namespace Invocation

variable {invocation : Invocation} {library : Library} {input : Except InputFault ByteArray}
  {message out : String} {g : Grammar}

/-- What goes wrong first: the input, its text, the reader or an action. -/
inductive FirstFailure (invocation : Invocation) (library : Library)
    (input : Except InputFault ByteArray) : String → Prop
  | input {fault : InputFault} : input = .error fault →
    FirstFailure invocation library input fault.message
  | text {bytes : ByteArray} : input = .ok bytes → (∀ text : String, bytes ≠ text.toUTF8) →
    FirstFailure invocation library input InputFault.notText.message
  | reader {text : String} {error : GrammarError} : input = .ok text.toUTF8 →
    invocation.reader library text = .error error →
    FirstFailure invocation library input error.message
  | action {text : String} {read found : Grammar} {before after : List Action} {action : Action}
    {error : GrammarError} : input = .ok text.toUTF8 →
    invocation.reader library text = .ok read → invocation.actions = before ++ action :: after →
    Converts before read found → action.apply found = .error error →
    FirstFailure invocation library input error.message

/-- The grammar that is read and then changed by all actions. -/
inductive Arrives (invocation : Invocation) (library : Library)
    (input : Except InputFault ByteArray) : Grammar → Prop
  | intro {text : String} {read g : Grammar} : input = .ok text.toUTF8 →
    invocation.reader library text = .ok read → Converts invocation.actions read g →
    Arrives invocation library input g

theorem readGrammar_job (invocation : Invocation) (library : Library) :
    invocation.job.readGrammar library = invocation.reader library := by
  funext text
  simp only [Job.readGrammar, job, reader, decide_eq_true_eq]
  split <;> rfl

/-- The job gives the outputs of the grammar that it arrives at. -/
theorem result_eq_ok_iff : invocation.job.result library input = .ok out ↔
    ∃ g, invocation.Arrives library input g ∧
      Shown library g invocation.style invocation.outputs out := by
  simp only [Job.result, bind_eq_ok_iff, decode_eq_ok_iff, mapError_eq_ok_iff, readGrammar_job,
    Job.convert, pure_eq_ok_iff, shown_iff]
  constructor
  · rintro ⟨text, htext, read, hread, g, hactions, hout⟩
    exact ⟨g, ⟨htext, hread, foldlM_apply_eq_ok_iff.1 hactions⟩, hout⟩
  · rintro ⟨g, ⟨htext, hread, hactions⟩, hout⟩
    exact ⟨_, htext, _, hread, g, foldlM_apply_eq_ok_iff.2 hactions, hout⟩

/-- The job fails for what goes wrong first. -/
theorem result_eq_error_iff :
    (∃ failure, invocation.job.result library input = .error failure ∧
        failure.message = message) ↔
      invocation.FirstFailure library input message := by
  simp only [Job.result, bind_eq_error_iff, decode_eq_ok_iff, decode_eq_error_iff,
    mapError_eq_ok_iff, mapError_eq_error_iff, readGrammar_job, Job.convert]
  constructor
  · rintro ⟨failure, hfailure, rfl⟩
    rcases hfailure with hinput | ⟨text, htext, ⟨error, hread, rfl⟩ | ⟨read, hread, hrest⟩⟩
    · rcases hinput with ⟨fault, hfault, rfl⟩ | ⟨bytes, hbytes, hnone, rfl⟩
      · exact .input hfault
      · exact .text hbytes hnone
    · exact .reader htext hread
    · rcases hrest with ⟨error, hactions, rfl⟩ | ⟨g, -, hrender⟩
      · obtain ⟨before, action, after, found, hsplit, hbefore, hfailed⟩ :=
          foldlM_apply_eq_error_iff.1 hactions
        exact .action htext hread hsplit hbefore hfailed
      · exact nomatch hrender
  · rintro (hfault | ⟨hbytes, hnone⟩ | ⟨htext, hread⟩ |
      ⟨htext, hread, hsplit, hbefore, hfailed⟩)
    · exact ⟨_, .inl (.inl ⟨_, hfault, rfl⟩), rfl⟩
    · exact ⟨_, .inl (.inr ⟨_, hbytes, hnone, rfl⟩), rfl⟩
    · exact ⟨_, .inr ⟨_, htext, .inl ⟨_, hread, rfl⟩⟩, rfl⟩
    · have hactions := foldlM_apply_eq_error_iff.2 ⟨_, _, _, _, hsplit, hbefore, hfailed⟩
      exact ⟨_, .inr ⟨_, htext, .inr ⟨_, hread, .inl ⟨_, hactions, rfl⟩⟩⟩, rfl⟩

end Invocation

/-! ## Outcomes -/

/-- What a failed run leaves behind. -/
def Outcome.failed (message : String) : Outcome where
  exitCode := 1
  stderr := "error: " ++ message ++ "\n"

/-- What a run without messages leaves behind that prints a text. -/
def Outcome.printed (text : String) : Outcome where
  stdout := text

/-- A conversion told as a JSON text and as the outcome of a run: both give the grammar, or both
give the message of the error, which is then the only member of the text. -/
inductive ToldAlike : Except GrammarError Grammar → String → Outcome → Prop
  | grammar (g : Grammar) : ToldAlike (.ok g) g.toJson (.printed (g.toJson ++ "\n"))
  | error (error : GrammarError) : ToldAlike (.error error)
    ("\x7b\"error\":" ++ String.ofList (Json.writeString error.message) ++ "\x7d")
    (.failed error.message)

section Runs

variable {invocation : Invocation} {library : Library}
  {input : Option String → Except InputFault ByteArray} {message out : String}

theorem run_arguments (invocation : Invocation) (level? : Option LogLevel)
    (input : Option String → Except InputFault ByteArray) (library : Library) :
    run invocation.arguments level? input library =
      invocation.job.run library level? (input invocation.path?) := by
  rw [run, ofArguments_arguments]
  rfl

/-- Without a setting for the log a run leaves nothing behind but its result. -/
theorem run_arguments_unset (invocation : Invocation)
    (input : Option String → Except InputFault ByteArray) (library : Library) :
    run invocation.arguments (logLevel? none) input library =
      match invocation.job.result library (input invocation.path?) with
      | .ok text => .printed text
      | .error failure => .failed failure.message := by
  have hlog : logText (logLevel? none) (invocation.job.log library (input invocation.path?)) = "" :=
    logText_error (invocation.job.errorFree_log library _)
  simp only [run_arguments, Job.run, hlog, String.empty_append]
  rfl

/-- A setting for the log only puts messages in front of what a run leaves on standard error. -/
theorem run_arguments_of_level (invocation : Invocation) (level? : Option LogLevel)
    (input : Option String → Except InputFault ByteArray) (library : Library) :
    run invocation.arguments level? input library =
      { run invocation.arguments (logLevel? none) input library with
        stderr := logText level? (invocation.job.log library (input invocation.path?)) ++
          (run invocation.arguments (logLevel? none) input library).stderr } := by
  rw [run_arguments_unset, run_arguments, Job.run]
  cases invocation.job.result library (input invocation.path?) with
  | ok text => simp [Outcome.printed]
  | error failure => simp [Outcome.failed, String.append_assoc]

theorem run_arguments_eq_printed_iff :
    run invocation.arguments (logLevel? none) input library = .printed out ↔
      ∃ g, invocation.Arrives library (input invocation.path?) g ∧
        Shown library g invocation.style invocation.outputs out := by
  rw [run_arguments_unset, ← Invocation.result_eq_ok_iff]
  cases invocation.job.result library (input invocation.path?) with
  | ok text => simp [Outcome.printed]
  | error failure => simp [Outcome.printed, Outcome.failed]

theorem run_arguments_eq_failed_iff :
    run invocation.arguments (logLevel? none) input library = .failed message ↔
      invocation.FirstFailure library (input invocation.path?) message := by
  rw [run_arguments_unset, ← Invocation.result_eq_error_iff]
  cases invocation.job.result library (input invocation.path?) with
  | ok text => simp [Outcome.printed, Outcome.failed]
  | error failure => simp [Outcome.failed]

/-- A run fails or prints. -/
theorem run_arguments_cases (invocation : Invocation)
    (input : Option String → Except InputFault ByteArray) (library : Library) :
    (∃ message, run invocation.arguments (logLevel? none) input library = .failed message) ∨
      ∃ out, run invocation.arguments (logLevel? none) input library = .printed out := by
  rw [run_arguments_unset]
  cases invocation.job.result library (input invocation.path?) with
  | ok text => exact .inr ⟨text, rfl⟩
  | error failure => exact .inl ⟨failure.message, rfl⟩

end Runs

/-! ## Conversions to JSON -/

theorem resultToJson_error (error : GrammarError) : Grammar.resultToJson (.error error) =
    "\x7b\"error\":" ++ String.ofList (Json.writeString error.message) ++ "\x7d" := by
  have hkey : Json.writeString "error" = "\"error\"".toList := by rfl
  rw [← String.toList_inj]
  simp [Grammar.resultToJson, Json.writeMap, Json.writeMember, hkey]

/-- The actions, and the productions in JSON as the only output. -/
def Invocation.conversion (actions : List Action) : Invocation where
  actions := actions
  outputs := [.productions]
  options := [.json]
  path? := none
  outputs_ne_nil := List.cons_ne_nil _ _
  path_notMem := nofun

/-- The run with the productions in JSON as the only output tells the conversion by its actions. -/
theorem toldAlike_conversion (library : Library) (actions : List Action) (text : String) :
    ToldAlike ((Grammar.ofText text).bind fun g ↦
        actions.foldlM (fun g action ↦ action.apply g) g)
      (Grammar.resultToJson ((Grammar.ofText text).bind fun g ↦
        actions.foldlM (fun g action ↦ action.apply g) g))
      (run (Invocation.conversion actions).arguments (logLevel? none) (fun _ ↦ .ok text.toUTF8)
        library) := by
  cases hresult : (Grammar.ofText text).bind fun g ↦
      actions.foldlM (fun g action ↦ action.apply g) g with
  | ok g =>
    obtain ⟨read, hread, hactions⟩ := bind_eq_ok_iff.1 hresult
    have hshown : Shown library g .json [.productions] (g.toJson ++ "\n") :=
      shown_iff.2 String.empty_append.symm
    have harrives : (Invocation.conversion actions).Arrives library (.ok text.toUTF8) g :=
      ⟨rfl, hread, foldlM_apply_eq_ok_iff.1 hactions⟩
    rw [run_arguments_eq_printed_iff.2 ⟨g, harrives, hshown⟩]
    exact .grammar g
  | error error =>
    have hfailure : (Invocation.conversion actions).FirstFailure library (.ok text.toUTF8)
        error.message := by
      rcases bind_eq_error_iff.1 hresult with hread | ⟨read, hread, hactions⟩
      · exact .reader rfl hread
      · obtain ⟨_, _, _, _, hsplit, hbefore, hfailed⟩ := foldlM_apply_eq_error_iff.1 hactions
        exact .action rfl hread hsplit hbefore hfailed
    rw [run_arguments_eq_failed_iff.2 hfailure, resultToJson_error]
    exact .error error

/-- The command line is all or nothing.  Without a setting for the log a run fails for what goes
wrong first and leaves nothing else behind, or it prints every output of the grammar that the
actions arrive at.  In particular it tells of a text on standard input, in both normal forms, what
the conversions to JSON tell. -/
theorem run_outcome (library : Library) :
    (∀ (invocation : Invocation) (input : Option String → Except InputFault ByteArray),
      (∀ message, run invocation.arguments (logLevel? none) input library = .failed message ↔
        invocation.FirstFailure library (input invocation.path?) message) ∧
      (∀ out, run invocation.arguments (logLevel? none) input library = .printed out ↔
        ∃ g, invocation.Arrives library (input invocation.path?) g ∧
          Shown library g invocation.style invocation.outputs out) ∧
      ((∃ message, run invocation.arguments (logLevel? none) input library = .failed message) ∨
        ∃ out, run invocation.arguments (logLevel? none) input library = .printed out)) ∧
    ∀ text : String,
      ToldAlike ((Grammar.ofText text).bind Grammar.toChomsky) (Grammar.chomskyToJson text)
          (run ["cnf", "prod", "-j"] (logLevel? none) (fun _ ↦ .ok text.toUTF8) library) ∧
        ToldAlike ((Grammar.ofText text).bind fun g ↦ g.toChomsky.bind Grammar.toGreibach)
          (Grammar.greibachToJson text)
          (run ["cnf", "gnf", "prod", "-j"] (logLevel? none) (fun _ ↦ .ok text.toUTF8)
            library) := by
  refine ⟨fun invocation input ↦ ⟨fun _ ↦ run_arguments_eq_failed_iff,
    fun _ ↦ run_arguments_eq_printed_iff, run_arguments_cases invocation input library⟩,
    fun text ↦ ?_⟩
  have hchomsky := toldAlike_conversion library [.chomsky] text
  have hgreibach := toldAlike_conversion library [.chomsky, .greibach] text
  simp only [List.foldlM_cons, List.foldlM_nil, bind_pure] at hchomsky hgreibach
  exact ⟨hchomsky, hgreibach⟩

example : run ["cnf", "prod", "nullable", "-l", "-j"] (logLevel? none)
    (fun _ ↦ .ok "S -> a S | λ".toUTF8) =
    .printed "\x7b\"S\":[[\"a\"],[\"T0\",\"S\"],[\"λ\"]],\"T0\":[[\"a\"]]\x7d\n[\"S\"]\n" := by
  rfl

end ContextFree.CommandLine
