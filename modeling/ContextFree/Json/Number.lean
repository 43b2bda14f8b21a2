import ContextFree.Json.Fault

/-!
# Numbers in JSON

No grammar holds a number, so a number is read only to say what was found.  It is whole if it has
neither fraction nor exponent and fits 64 bits, and is rounded otherwise.  Of a longer number the
leading digits that fit 64 bits count; the others only move the decimal point.
-/

namespace ContextFree.Json

/-- Takes a value off the front of a text and gives the rest of it. -/
abbrev Reader (α : Type) := List Char → Except Stop (α × List Char)

/-- The largest whole number that is kept digit by digit. -/
def wholeLimit : Nat := Nat.pow 2 64 - 1

/-- The largest exponent that is kept digit by digit. -/
def exponentLimit : Nat := Nat.pow 2 31 - 1

def digitValue (c : Char) : Nat := c.toNat - '0'.toNat

/-- Extends a value by the digits in front of a text, for as long as it stays within a limit; also
gives the rest of the text. -/
def takeDigits (limit value : Nat) : List Char → Nat × List Char
  | [] => (value, [])
  | c :: text =>
    if c.isDigit ∧ value * 10 + digitValue c ≤ limit then
      takeDigits limit (value * 10 + digitValue c) text
    else (value, c :: text)

/-- The number `significand * 10 ^ power`, rounded, in front of a text. -/
def roundedNumber (negative : Bool) (significand : Nat) (power : Int) : Reader Number := fun text ↦
  match Decimal.Binary64.scaled? significand power with
  | some magnitude => .ok (.rounded negative magnitude, text)
  | none => .error (.before .numberTooLarge text)

/-- Reads what follows the mark of an exponent.  An exponent beyond 32 bits makes the number too
large or nothing. -/
def readExponent (negative : Bool) (significand : Nat) (power : Int) : Reader Number := fun text ↦
  let (down, text) : Bool × List Char := match text with
    | '+' :: text => (false, text)
    | '-' :: text => (true, text)
    | text => (false, text)
  match text with
  | [] => .error (.ended (.unfinished .value))
  | c :: _ =>
    if c.isDigit = false then .error (.behind .badNumber 1 text)
    else
      let (exponent, rest) := takeDigits exponentLimit 0 text
      if rest.head?.any Char.isDigit = false then
        roundedNumber negative significand (if down then power - exponent else power + exponent)
          rest
      else if significand ≠ 0 ∧ down = false then .error (.behind .numberTooLarge 1 rest)
      else .ok (.rounded negative .zero, rest.dropWhile Char.isDigit)

/-- Reads what follows a decimal point. -/
def readFraction (negative : Bool) (significand : Nat) (power : Int) : Reader Number := fun text ↦
  let (extended, rest) := takeDigits wholeLimit significand text
  match text with
  | [] => .error (.ended (.unfinished .value))
  | c :: _ =>
    if c.isDigit then
      let power := power - (text.length - rest.length : Nat)
      match rest.dropWhile Char.isDigit with
      | 'e' :: rest => readExponent negative extended power rest
      | 'E' :: rest => readExponent negative extended power rest
      | rest => roundedNumber negative extended power rest
    else .error (.behind .badNumber 1 text)

/-- A number without fraction and exponent, in front of a text.  There is no whole negative zero. -/
def wholeNumber (negative : Bool) (n : Nat) : Reader Number := fun text ↦
  if negative = false then .ok (.whole n, text)
  else if n ≠ 0 ∧ n ≤ Nat.pow 2 63 then .ok (.whole (-n), text)
  else roundedNumber negative n 0 text

/-- Reads the number that a text starts with, its sign taken off before. -/
def readNumber (negative : Bool) : Reader Number := fun text ↦
  match text with
  | [] => .error (.ended (.unfinished .value))
  | c :: following =>
    if c.isDigit = false then .error (.behind .badNumber 1 text)
    else if c = '0' ∧ (following.head?.any Char.isDigit) then
      .error (.behind .badNumber 1 following)
    else
      let (significand, rest) := takeDigits wholeLimit 0 text
      let power := (rest.takeWhile Char.isDigit).length
      match rest.dropWhile Char.isDigit with
      | '.' :: rest => readFraction negative significand power rest
      | 'e' :: rest => readExponent negative significand power rest
      | 'E' :: rest => readExponent negative significand power rest
      | rest =>
        if power = 0 then wholeNumber negative significand rest
        else roundedNumber negative significand power rest

end ContextFree.Json
