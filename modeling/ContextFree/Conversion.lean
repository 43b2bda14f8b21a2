import ContextFree.Chomsky
import ContextFree.Grammar.Json
import ContextFree.Grammar.Reading
import ContextFree.Greibach

/-!
# From text to a normal form in JSON

A grammar is read from text, brought into a normal form and written as JSON, all in one call.  The
way to Greibach normal form leads through Chomsky normal form.  What goes wrong is written in JSON
too, so there is an answer to every text.
-/

namespace ContextFree.Grammar

/-- The Chomsky normal form of a written grammar. -/
def chomskyToJson (text : String) : String :=
  resultToJson ((ofText text).bind toChomsky)

/-- The Greibach normal form of a written grammar. -/
def greibachToJson (text : String) : String :=
  resultToJson ((ofText text).bind fun g ↦ g.toChomsky.bind toGreibach)

end ContextFree.Grammar
