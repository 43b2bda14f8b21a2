import ContextFree.Decimal.Binary64

/-!
# The shortest decimal of a value

A value is written with the fewest decimal digits that read back to it.  The reals that read back to
a value form an interval around it, from half-way to its neighbour below to half-way to its
neighbour above, the ends included exactly when the significand is even.  On each grid of powers of
ten only the two grid points next to the value need a test: if any point of the grid lies in the
interval, one of those does.

`Binary64.text` lays the digits out: positionally from `10 ^ (-5)` up to `10 ^ 16`, otherwise with
an exponent that has a sign and no padding.
-/

namespace ContextFree.Decimal

/-- The number `digits * 10 ^ exponent`. -/
structure Numeral where
  digits : Nat
  exponent : Int
deriving DecidableEq, Repr

namespace Numeral

/-- Orders `x` against `n * 2 ^ power`, exactly. -/
def compareBinary (x : Numeral) (n : Nat) (power : Int) : Ordering :=
  compare (x.digits * Nat.pow 10 x.exponent.toNat * Nat.pow 2 (-power).toNat)
    (n * Nat.pow 2 power.toNat * Nat.pow 10 (-x.exponent).toNat)

/-- Moves trailing zeros of the digits into the exponent. -/
def trimmed (x : Numeral) : Numeral :=
  let zeros := ((Nat.toDigits 10 x.digits).reverse.takeWhile (· == '0')).length
  if x.digits = 0 then x else ⟨x.digits / Nat.pow 10 zeros, x.exponent + zeros⟩

/-- The digits with a decimal point among, before or behind them, or with an exponent. -/
def layout (x : Numeral) : String :=
  let digits := Nat.toDigits 10 x.digits
  let point : Int := digits.length + x.exponent
  let zeros (n : Int) := List.replicate n.toNat '0'
  let positional := -5 < point ∧ point ≤ 16
  String.ofList <|
    if positional ∧ 0 ≤ x.exponent then digits ++ zeros x.exponent ++ ['.', '0']
    else if positional ∧ 0 < point then
      digits.take point.toNat ++ '.' :: digits.drop point.toNat
    else if positional then '0' :: '.' :: zeros (-point) ++ digits
    else
      let fraction := match digits.drop 1 with
        | [] => []
        | rest => '.' :: rest
      let sign := if point ≤ 0 then '-' else '+'
      digits.take 1 ++ fraction ++ 'e' :: sign :: Nat.toDigits 10 (point - 1).natAbs

end Numeral

namespace Binary64

/-- Whether a decimal lies among the reals that round to a positive value.  The gap below a power of
two is half the gap above it. -/
def readsBack (x : Binary64) (d : Numeral) : Bool :=
  let narrow := x.significand = Nat.pow 2 52 ∧ leastExponent < x.exponent
  let low := if narrow then 4 * x.significand - 1 else 4 * x.significand - 2
  let high := 4 * x.significand + 2
  let even := x.significand % 2 == 0
  let fromLow := d.compareBinary low (x.exponent - 2)
  let fromHigh := d.compareBinary high (x.exponent - 2)
  (fromLow == .gt || (even && fromLow == .eq)) && (fromHigh == .lt || (even && fromHigh == .eq))

/-- The grid point of `10 ^ power` that reads back to the value, if there is one; of two the nearer,
and of two equally near the even one. -/
def gridPoint? (x : Binary64) (power : Int) : Option Numeral :=
  let num := x.significand * Nat.pow 2 x.exponent.toNat * Nat.pow 10 (-power).toNat
  let den := Nat.pow 2 (-x.exponent).toNat * Nat.pow 10 power.toNat
  let nearest := roundQuotient num den
  let other := if nearest = num / den then nearest + 1 else nearest - 1
  [nearest, other].findSome? fun n ↦
    if x.readsBack ⟨n, power⟩ then some ⟨n, power⟩ else none

/-- The fewest digits that read back to the value.  The grids go from the coarsest on which a value
can lie to the finest that any value needs. -/
def shortest (x : Binary64) : Numeral :=
  if x.significand = 0 then ⟨0, 0⟩ else
    let grids := (List.range 700).map fun (i : Nat) ↦ (309 : Int) - (i : Int)
    ((grids.findSome? x.gridPoint?).getD ⟨0, 0⟩).trimmed

/-- The value in decimal. -/
def text (x : Binary64) : String :=
  x.shortest.layout

end Binary64

end ContextFree.Decimal
