import ContextFree.Grammar.Validity
import ContextFree.Json.Reader
import ContextFree.Json.Writer

/-!
# Grammars in JSON

Writing keeps the order of the rules and of the productions.  Reading finds the kinds of the symbols
again from the names that are declared, and refuses a grammar that is not valid.
-/

namespace ContextFree

namespace Grammar

def toJson (g : Grammar) : String :=
  String.ofList (Json.write (Json.Document.ofGrammar g))

/-- Reads a grammar.  The error for a faulty text also holds the place that a function gives for
it. -/
def ofJson (text : String) (place? : String → Option Json.Place := fun _ ↦ none) :
    Except GrammarError Grammar :=
  match Json.read text.toList with
  | .error stop => .error (.badJson ⟨stop.fault, place? text⟩)
  | .ok document => do
    let g := document.toGrammar
    g.validate
    return g

/-- A grammar, or the message of the error in its place, as a JSON text. -/
def resultToJson : Except GrammarError Grammar → String
  | .ok g => g.toJson
  | .error error => String.ofList <|
    Json.writeMap [Json.writeMember "error" (Json.writeString error.message)]

end Grammar

end ContextFree
