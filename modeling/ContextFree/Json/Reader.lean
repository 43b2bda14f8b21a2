import ContextFree.Json.Document
import ContextFree.Json.Number

/-!
# Reading a JSON document

The reader takes a text apart from left to right and stops at the first fault, whether the text is
no JSON there or a value has the wrong shape.  A list and a map are read alike: items between
brackets, with commas between them, so both come from `bracketed`.

Whatever repeats takes a step for each repetition and reads at least one character in it.  So the
length of the whole text bounds the steps of every part, and `read` allows each part that many.
-/

namespace ContextFree.Json

/-- Space, tab, line feed and carriage return are the only blanks between tokens. -/
def skipBlanks (text : List Char) : List Char :=
  text.dropWhile fun c ↦ c == ' ' || c == '\t' || c == '\n' || c == '\r'

/-! ## Strings -/

def hexDigit? (c : Char) : Option Nat :=
  if c.isDigit then some (c.toNat - '0'.toNat)
  else if 'a' ≤ c ∧ c ≤ 'f' then some (c.toNat - 'a'.toNat + 10)
  else if 'A' ≤ c ∧ c ≤ 'F' then some (c.toNat - 'A'.toNat + 10)
  else none

/-- Four hexadecimal digits.  The text is unfinished if it has fewer than four bytes left, and four
bytes are looked at together. -/
def readUnit : Reader Nat := fun text ↦
  match (text.take 4).mapM hexDigit? with
  | some [a, b, c, d] => .ok (((a * 16 + b) * 16 + c) * 16 + d, text.drop 4)
  | _ =>
    if (String.ofList (text.take 4)).utf8ByteSize < 4 then .error (.ended (.unfinished .string))
    else .error (.behind .badEscape 4 text)

def isHighSurrogate (unit : Nat) : Bool := 0xD800 ≤ unit && unit ≤ 0xDBFF

def isLowSurrogate (unit : Nat) : Bool := 0xDC00 ≤ unit && unit ≤ 0xDFFF

/-- The character of a surrogate pair. -/
def ofSurrogates (high low : Nat) : Char :=
  Char.ofNat ((high - 0xD800) * 0x400 + (low - 0xDC00) + 0x10000)

/-- A character given by its code, a pair of surrogates if it has no code of four digits. -/
def readCode : Reader Char := fun text ↦ do
  let (unit, rest) ← readUnit text
  if isLowSurrogate unit then .error (.before .loneSurrogate rest)
  else if isHighSurrogate unit then
    match rest with
    | [] => .error (.ended (.unfinished .string))
    | ['\\'] => .error (.ended (.unfinished .string))
    | '\\' :: 'u' :: rest =>
      let (low, rest) ← readUnit rest
      if isLowSurrogate low then .ok (ofSurrogates unit low, rest)
      else .error (.before .loneSurrogate rest)
    | '\\' :: rest => .error (.behind .halfSurrogatePair 1 rest)
    | rest => .error (.behind .halfSurrogatePair 1 rest)
  else .ok (Char.ofNat unit, rest)

/-- The character that a letter behind a backslash stands for. -/
def unescape? : Char → Option Char
  | '"' => some '"'
  | '\\' => some '\\'
  | '/' => some '/'
  | 'b' => some '\x08'
  | 'f' => some '\x0c'
  | 'n' => some '\n'
  | 'r' => some '\r'
  | 't' => some '\t'
  | _ => none

def readEscape : Reader Char
  | [] => .error (.ended (.unfinished .string))
  | 'u' :: text => readCode text
  | c :: text =>
    match unescape? c with
    | some escaped => .ok (escaped, text)
    | none => .error (.behind .badEscape 1 (c :: text))

/-- Reads a string whose opening quotation mark is taken off. -/
def readString : Nat → Reader (List Char)
  | 0, _ => .error (.ended (.unfinished .string))
  | _ + 1, [] => .error (.ended (.unfinished .string))
  | _ + 1, '"' :: text => .ok ([], text)
  | steps + 1, '\\' :: text => do
    let (c, text) ← readEscape text
    let (rest, text) ← readString steps text
    return (c :: rest, text)
  | steps + 1, c :: text =>
    if c.toNat < 0x20 then .error (.behind .controlCharacter 1 (c :: text))
    else do
      let (rest, text) ← readString steps text
      return (c :: rest, text)

/-! ## Values of the wrong shape -/

/-- Takes the given letters off the front of a text. -/
def readLiteral (found : Found) : List Char → Reader Found
  | [], text => .ok (found, text)
  | _ :: _, [] => .error (.ended (.unfinished .value))
  | letter :: letters, c :: text =>
    if c = letter then readLiteral found letters text
    else .error (.behind .noLiteral 1 (c :: text))

/-- What stands at the front of a text.  A list or a map is not read at all. -/
def readFound (steps : Nat) : Reader Found
  | [] => .error (.ended (.unfinished .value))
  | '[' :: text => .ok (.sequence, '[' :: text)
  | '\x7b' :: text => .ok (.map, '\x7b' :: text)
  | '"' :: text => do
    let (cs, text) ← readString steps text
    return (.string cs, text)
  | 'n' :: text => readLiteral .null ['u', 'l', 'l'] text
  | 't' :: text => readLiteral (.boolean true) ['r', 'u', 'e'] text
  | 'f' :: text => readLiteral (.boolean false) ['a', 'l', 's', 'e'] text
  | '-' :: text => do
    let (n, text) ← readNumber true text
    return (.number n, text)
  | c :: text =>
    if c.isDigit then do
      let (n, text) ← readNumber false (c :: text)
      return (.number n, text)
    else .error (.behind .noValue 1 (c :: text))

/-- The fault of a text that should start with a value of another shape. -/
def mismatch (steps : Nat) (wanted : Wanted) (text : List Char) : Stop :=
  match readFound steps text with
  | .ok (found, rest) => .before (.mistyped found wanted) rest
  | .error stop => stop

/-! ## Lists and maps -/

/-- How a list or a map is delimited. -/
structure Brackets where
  closing : Char
  construct : Construct
  noSeparator : Fault

def listBrackets : Brackets := ⟨']', .list, .noListSeparator⟩

def mapBrackets : Brackets := ⟨'\x7d', .object, .noMapSeparator⟩

/-- Reads items up to the closing bracket, at least one. -/
def readItems {α : Type} (brackets : Brackets) (item : Reader α) : Nat → Reader (List α)
  | 0, _ => .error (.ended (.unfinished brackets.construct))
  | steps + 1, text => do
    let (first, text) ← item text
    match skipBlanks text with
    | [] => .error (.ended (.unfinished brackets.construct))
    | c :: text =>
      if c = brackets.closing then return ([first], text)
      else if c = ',' then
        match skipBlanks text with
        | [] => .error (.ended (.unfinished .value))
        | c :: text =>
          if c = brackets.closing then .error (.behind .trailingComma 1 (c :: text))
          else
            let (rest, text) ← readItems brackets item steps (c :: text)
            return (first :: rest, text)
      else .error (.behind brackets.noSeparator 1 (c :: text))

/-- Reads items up to the closing bracket, the opening one being taken off. -/
def bracketed {α : Type} (steps : Nat) (brackets : Brackets) (item : Reader α) :
    Reader (List α) := fun text ↦
  match skipBlanks text with
  | [] => .error (.ended (.unfinished brackets.construct))
  | c :: rest =>
    if c = brackets.closing then .ok ([], rest) else readItems brackets item steps (c :: rest)

/-- Reads a value that has to be a string. -/
def stringValue (steps : Nat) : Reader Name := fun text ↦
  match skipBlanks text with
  | [] => .error (.ended (.unfinished .value))
  | '"' :: text => do
    let (name, text) ← readString steps text
    return (String.ofList name, text)
  | text => .error (mismatch steps .string text)

/-- Reads a value that has to be a list. -/
def listValue {α : Type} (steps : Nat) (item : Reader α) : Reader (List α) := fun text ↦
  match skipBlanks text with
  | [] => .error (.ended (.unfinished .value))
  | '[' :: text => bracketed steps listBrackets item text
  | text => .error (mismatch steps .sequence text)

/-- Reads a name, a colon and a value. -/
def member {α : Type} (steps : Nat) (value : Reader α) : Reader (Name × α)
  | '"' :: text => do
    let (name, text) ← readString steps text
    match skipBlanks text with
    | [] => .error (.ended (.unfinished .object))
    | ':' :: text =>
      let (value, text) ← value text
      return ((String.ofList name, value), text)
    | text => .error (.behind .noColon 1 text)
  | text => .error (.behind .keyNotString 1 text)

/-- Reads a value that has to be a map. -/
def mapValue {α : Type} (steps : Nat) (value : Reader α) : Reader (List (Name × α)) := fun text ↦
  match skipBlanks text with
  | [] => .error (.ended (.unfinished .value))
  | '\x7b' :: text => bracketed steps mapBrackets (member steps value) text
  | text => .error (mismatch steps .map text)

/-- Reads a whole text. -/
def read (text : List Char) : Except Stop Document := do
  let steps := text.length + 1
  let lists := listValue steps (listValue steps (stringValue steps))
  let (document, rest) ← mapValue steps lists text
  match skipBlanks rest with
  | [] => return document
  | rest => .error (.behind .trailingText 1 rest)

/-- The place at which reading a text stops, if it fails. -/
def place? (text : String) : Option Place :=
  match read text.toList with
  | .ok _ => none
  | .error stop => some (.ofLeft text stop.left)

end ContextFree.Json
