import Mustache.Number.Binary64

/-!
# Mustache.Number.Decimal

The shortest decimal that reads back as a given number, written without an exponent.

`shortest` looks at the grids of 1, 2, … 17 digits in turn. On each it tests the two neighbours of
the number; the first grid on which one of them rounds to the number wins, and of two that do the
nearer, the greater when both are as near.
-/

namespace Mustache.Binary64

/-- Digits `digits` times ten to the power `power - 400`. -/
structure Decimal where
  digits : Nat
  power : Nat
  deriving DecidableEq, Repr

namespace Decimal

def offset : Nat := 400

def numerator (d : Decimal) : Nat := d.digits * Nat.pow 10 (d.power - offset)

def denominator (d : Decimal) : Nat := Nat.pow 10 (offset - d.power)

/-- Whether the decimal rounds to `x`, the sign of `x` left aside. -/
def roundsTo (d : Decimal) (x : Binary64) : Bool :=
  (ofRatio d.numerator d.denominator).magnitudeBits == x.magnitudeBits

end Decimal

/-- The number of digits before the point of `num / den`, raised by `offset`: the least `k` with
`num / den < 10 ^ (k - offset)`, looked for downwards from `k`. -/
def magnitude (num den : Nat) : Nat → Nat
  | 0 => 0
  | k + 1 =>
    if num * Nat.pow 10 (Decimal.offset - k) < den * Nat.pow 10 (k - Decimal.offset) then
      magnitude num den k
    else k + 1

/-- The better of the two neighbours of `x` on the grid of the multiples of `10 ^ (power - 400)`,
if one of them rounds to `x`. -/
def onGrid (x : Binary64) (power : Nat) : Option Decimal :=
  let num := x.numerator * Nat.pow 10 (Decimal.offset - power)
  let den := x.denominator * Nat.pow 10 (power - Decimal.offset)
  let low : Decimal := ⟨num / den, power⟩
  let high : Decimal := ⟨num / den + 1, power⟩
  let twice := 2 * (num % den)
  match low.roundsTo x, high.roundsTo x with
  | false, false => none
  | true, false => some low
  | false, true => some high
  | true, true => if twice < den then some low else some high

def firstGrid (x : Binary64) (top : Nat) : List Nat → Option Decimal
  | [] => none
  | places :: more =>
    match onGrid x (top - places) with
    | some d => some d
    | none => firstGrid x top more

/-- Ten of a unit are one of the next: the neighbour above nine ends in a zero. -/
def Decimal.carried (d : Decimal) : Decimal :=
  if d.digits = 10 then ⟨1, d.power + 1⟩ else d

/-- The decimal of fewest digits that rounds to `x`, which is finite and not zero. -/
def shortest (x : Binary64) : Option Decimal :=
  let top := magnitude x.numerator x.denominator 720
  (firstGrid x top (List.range' 1 17)).map Decimal.carried

/-! ## Written form -/

def Decimal.positional (d : Decimal) : List Char :=
  let digits := Nat.toDigits 10 d.digits
  if Decimal.offset ≤ d.power then digits ++ List.replicate (d.power - Decimal.offset) '0'
  else
    let places := Decimal.offset - d.power
    let padded := List.replicate (places + 1 - digits.length) '0' ++ digits
    let whole := padded.length - places
    padded.take whole ++ '.' :: padded.drop whole

/-- A number in full, with the fewest digits that read back and never with an exponent. -/
def text (x : Binary64) : String :=
  if x.isNaN then "NaN"
  else
    let sign := if x.isNegative then ['-'] else []
    if x.isInfinite then String.ofList (sign ++ ['i', 'n', 'f'])
    else
      match if x.isZero then none else shortest x with
      | none => String.ofList (sign ++ ['0'])
      | some d => String.ofList (sign ++ d.positional)

end Mustache.Binary64
