/-!
# Binary floating-point values of 64 bits

A finite non-negative value is a significand below `2 ^ 53` times a power of two that is at least
`2 ^ (-1074)`.  Every operation is the exact result in natural-number arithmetic, rounded once to
the nearest value, ties to the even significand; a result too large for the format is `none`.
-/

namespace ContextFree.Decimal

/-- The value `significand * 2 ^ exponent`. -/
structure Binary64 where
  significand : Nat
  exponent : Int
deriving DecidableEq, Repr

namespace Binary64

/-- The exponent of the smallest positive value. -/
def leastExponent : Int := -1074

/-- The exponent of the largest values. -/
def greatestExponent : Int := 971

def zero : Binary64 := ⟨0, leastExponent⟩

/-- The quotient rounded to the nearest natural number, ties to even. -/
def roundQuotient (num den : Nat) : Nat :=
  let floor := num / den
  let twice := 2 * (num % den)
  if twice < den ∨ (twice = den ∧ floor % 2 = 0) then floor else floor + 1

/-- The quotient `num / den` counted in units of `2 ^ exponent`, as a new quotient. -/
def inUnits (num den : Nat) (exponent : Int) : Nat × Nat :=
  (num * Nat.pow 2 (-exponent).toNat, den * Nat.pow 2 exponent.toNat)

/-- The value nearest to `num / den`.  The unit is chosen so that the quotient counted in it lies
between `2 ^ 52` and `2 ^ 53`, or is the smallest unit there is. -/
def ofQuotient? (num den : Nat) : Option Binary64 :=
  if num = 0 then some zero else
  let estimate : Int := (num.log2 : Int) - den.log2 - 52
  let (scaled, unit) := inUnits num den estimate
  let exponent :=
    max leastExponent (if scaled / unit < Nat.pow 2 52 then estimate - 1 else estimate)
  let (scaled, unit) := inUnits num den exponent
  let rounded := roundQuotient scaled unit
  let result : Binary64 :=
    if rounded = Nat.pow 2 53 then ⟨Nat.pow 2 52, exponent + 1⟩ else ⟨rounded, exponent⟩
  if result.exponent ≤ greatestExponent then some result else none

def ofNat? (n : Nat) : Option Binary64 :=
  ofQuotient? n 1

def mul? (x y : Binary64) : Option Binary64 :=
  let exponent := x.exponent + y.exponent
  ofQuotient? (x.significand * y.significand * Nat.pow 2 exponent.toNat)
    (Nat.pow 2 (-exponent).toNat)

def div? (x y : Binary64) : Option Binary64 :=
  let exponent := x.exponent - y.exponent
  ofQuotient? (x.significand * Nat.pow 2 exponent.toNat)
    (y.significand * Nat.pow 2 (-exponent).toNat)

/-- The value nearest to `n * 10 ^ power` that one rounding of `n`, one of the power of ten and one
of their product or quotient give.  Powers below `10 ^ (-308)` are divided out in two rounds; past
the second nothing is left of a number below `2 ^ 64`. -/
def scaled? (n : Nat) (power : Int) : Option Binary64 := do
  let value ← ofNat? n
  if value.significand = 0 then return zero
  if 0 ≤ power then
    if 308 < power then none else value.mul? (← ofNat? (Nat.pow 10 power.toNat))
  else if -308 ≤ power then
    value.div? (← ofNat? (Nat.pow 10 power.natAbs))
  else if -616 ≤ power then
    let reduced ← value.div? (← ofNat? (Nat.pow 10 308))
    reduced.div? (← ofNat? (Nat.pow 10 (power.natAbs - 308)))
  else
    return zero

end Binary64

end ContextFree.Decimal
