import ContextFree.Decimal.Shortest
import ContextFree.Text.Quoted

/-!
# What can be wrong with a grammar in JSON

A grammar is written as a map from names to sequences of sequences of strings.  A text fails either
because it is no JSON or because a value has another shape than the one wanted at its place.

A reader stops at the first fault and keeps how much of the text lies behind it, in bytes, as the
last thing seen may be a byte within a character.  The place that a message names is a line and a
column.
-/

namespace ContextFree.Json

/-- What was being read when the text ended. -/
inductive Construct where
  | value
  | list
  | string
  | object
deriving DecidableEq, Repr

def Construct.describe : Construct → String
  | value => "a value"
  | list => "a list"
  | string => "a string"
  | object => "an object"

/-- A number as the text gives it: whole within 64 bits, else rounded. -/
inductive Number where
  | whole (n : Int)
  | rounded (negative : Bool) (magnitude : Decimal.Binary64)
deriving DecidableEq, Repr

def Number.describe : Number → String
  | whole n => "integer `" ++ toString n ++ "`"
  | rounded negative magnitude =>
    "floating point `" ++ (if negative then "-" else "") ++ magnitude.text ++ "`"

/-- A value found where another was wanted. -/
inductive Found where
  | null
  | boolean (b : Bool)
  | number (n : Number)
  | string (text : List Char)
  | sequence
  | map
deriving DecidableEq, Repr

def Found.describe : Found → String
  | null => "null"
  | boolean b => "boolean `" ++ (if b then "true" else "false") ++ "`"
  | number n => n.describe
  | string text => "string " ++ Text.quoted (String.ofList text)
  | sequence => "sequence"
  | map => "map"

/-- The shape of value wanted at a place. -/
inductive Wanted where
  | map
  | sequence
  | string
deriving DecidableEq, Repr

def Wanted.describe : Wanted → String
  | map => "a map"
  | sequence => "a sequence"
  | string => "a string"

inductive Fault where
  | unfinished (construct : Construct)
  | mistyped (found : Found) (wanted : Wanted)
  | noColon
  | noListSeparator
  | noMapSeparator
  | noValue
  | noLiteral
  | keyNotString
  | trailingComma
  | trailingText
  | badNumber
  | numberTooLarge
  | badEscape
  | controlCharacter
  | loneSurrogate
  | halfSurrogatePair
deriving DecidableEq, Repr

def Fault.message : Fault → String
  | unfinished construct => "EOF while parsing " ++ construct.describe
  | mistyped found wanted =>
    "invalid type: " ++ found.describe ++ ", expected " ++ wanted.describe
  | noColon => "expected `:`"
  | noListSeparator => "expected `,` or `]`"
  | noMapSeparator => "expected `,` or `\x7d`"
  | noValue => "expected value"
  | noLiteral => "expected ident"
  | keyNotString => "key must be a string"
  | trailingComma => "trailing comma"
  | trailingText => "trailing characters"
  | badNumber => "invalid number"
  | numberTooLarge => "number out of range"
  | badEscape => "invalid escape"
  | controlCharacter => "control character (\\u0000-\\u001F) found while parsing a string"
  | loneSurrogate => "lone leading surrogate in hex escape"
  | halfSurrogatePair => "unexpected end of hex escape"

/-! ## Places -/

/-- A fault and the number of bytes behind its place. -/
structure Stop where
  fault : Fault
  left : Nat
deriving DecidableEq, Repr

namespace Stop

/-- The text has ended. -/
def ended (fault : Fault) : Stop := ⟨fault, 0⟩

/-- The fault lies in front of a text. -/
def before (fault : Fault) (text : List Char) : Stop :=
  ⟨fault, (String.ofList text).utf8ByteSize⟩

/-- Some bytes at the front of a text show the fault. -/
def behind (fault : Fault) (bytes : Nat) (text : List Char) : Stop :=
  ⟨fault, (String.ofList text).utf8ByteSize - bytes⟩

end Stop

/-- A line, counted from one, and the bytes of it in front of a place. -/
structure Place where
  line : Nat
  column : Nat
deriving DecidableEq, Repr

def Place.describe (place : Place) : String :=
  " at line " ++ toString place.line ++ " column " ++ toString place.column

/-- The place in a text with a number of bytes behind it. -/
def Place.ofLeft (text : String) (left : Nat) : Place :=
  let read := text.toUTF8.data.toList.take (text.utf8ByteSize - left)
  let lineFeed := '\n'.toUInt8
  ⟨1 + read.count lineFeed, (read.reverse.takeWhile (· ≠ lineFeed)).length⟩

/-- What is wrong with a text, and where if that is known. -/
structure Failure where
  fault : Fault
  place? : Option Place
deriving DecidableEq, Repr

def Failure.message (failure : Failure) : String :=
  failure.fault.message ++ (failure.place?.map Place.describe).getD ""

end ContextFree.Json
