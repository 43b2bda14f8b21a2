import ContextFree.Json.Document

/-!
# Writing a JSON document

Documents are written without blanks and in their own order.  Between quotation marks only the
quotation mark, the backslash and the characters below the space are escaped, by a letter where
there is one.
-/

namespace ContextFree.Json

def hexDigit (n : Nat) : Char := if n < 10 then Char.ofNat (48 + n) else Char.ofNat (87 + n)

/-- The letter that stands for a character behind a backslash. -/
def escapeLetter? : Char → Option Char
  | '"' => some '"'
  | '\\' => some '\\'
  | '\x08' => some 'b'
  | '\x0c' => some 'f'
  | '\n' => some 'n'
  | '\r' => some 'r'
  | '\t' => some 't'
  | _ => none

def escape (c : Char) : List Char :=
  match escapeLetter? c with
  | some letter => ['\\', letter]
  | none =>
    if c.toNat < 0x20 then
      ['\\', 'u', '0', '0', hexDigit (c.toNat / 16), hexDigit (c.toNat % 16)]
    else [c]

def writeString (text : Name) : List Char :=
  '"' :: text.toList.flatMap escape ++ ['"']

def writeList (items : List (List Char)) : List Char :=
  '[' :: List.intercalate [','] items ++ [']']

def writeMember (name : Name) (value : List Char) : List Char :=
  writeString name ++ ':' :: value

def writeMap (members : List (List Char)) : List Char :=
  '\x7b' :: List.intercalate [','] members ++ ['\x7d']

def write (document : Document) : List Char :=
  writeMap <| document.map fun (name, lists) ↦
    writeMember name (writeList (lists.map fun list ↦ writeList (list.map writeString)))

end ContextFree.Json
