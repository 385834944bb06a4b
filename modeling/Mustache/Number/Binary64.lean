/-!
# Mustache.Number.Binary64

Floating-point numbers of 64 bits, kept as their bits, and computed with exactly: a finite number
is `mantissa · 2 ^ exponent`, and `ofRatio` rounds a quotient of natural numbers to the nearest
number, to the one with the even mantissa when two are as near.
-/

namespace Mustache

structure Binary64 where
  bits : UInt64
  deriving DecidableEq, Repr, Inhabited

namespace Binary64

def isNegative (x : Binary64) : Bool := x.bits >>> 63 == 1

def magnitudeBits (x : Binary64) : Nat := x.bits.toNat % Nat.pow 2 63

def biasedExponent (x : Binary64) : Nat := x.magnitudeBits / Nat.pow 2 52

def fraction (x : Binary64) : Nat := x.magnitudeBits % Nat.pow 2 52

def isFinite (x : Binary64) : Bool := x.biasedExponent != 2047

def isNaN (x : Binary64) : Bool := x.biasedExponent == 2047 && x.fraction != 0

def isInfinite (x : Binary64) : Bool := x.biasedExponent == 2047 && x.fraction == 0

def isZero (x : Binary64) : Bool := x.magnitudeBits == 0

/-- The mantissa as a natural number. The numbers of the least exponent have no leading bit. -/
def mantissa (x : Binary64) : Nat :=
  if x.biasedExponent = 0 then x.fraction else Nat.pow 2 52 + x.fraction

/-- The exponent that belongs to `mantissa`, raised by 1074 so that it is a natural number. -/
def raisedExponent (x : Binary64) : Nat := x.biasedExponent - 1

/-- A finite number without its sign is `numerator / denominator`. -/
def numerator (x : Binary64) : Nat := x.mantissa * Nat.pow 2 (x.raisedExponent - 1074)

def denominator (x : Binary64) : Nat := Nat.pow 2 (1074 - x.raisedExponent)

def zero : Binary64 := ⟨0⟩

def infinity : Binary64 := ⟨0x7ff0000000000000⟩

def neg (x : Binary64) : Binary64 := ⟨x.bits ^^^ 0x8000000000000000⟩

/-! ## Rounding -/

/-- `num / den` rounded to a natural number, to the even one of two that are as near. -/
def roundNat (num den : Nat) : Nat :=
  let q := num / den
  let r := num % den
  if 2 * r < den then q
  else if den < 2 * r then q + 1
  else q + q % 2

/-- The number next to `num / den`, infinity when that is too large. The exponent chosen is the
least at which the mantissa, before it is rounded, stays below `2 ^ 53`. -/
def ofRatio (num den : Nat) : Binary64 :=
  if num = 0 then zero
  else
    -- `num · 2 ^ 1074 / den` lies between `2 ^ (scale - 2)` and `2 ^ scale`
    let scale := num.log2 + 1075 - den.log2
    let excess := scale - 54
    let raised := num * Nat.pow 2 1074
    let e := if raised < den * Nat.pow 2 (53 + excess) then excess else excess + 1
    let m := roundNat raised (den * Nat.pow 2 e)
    -- a mantissa of `2 ^ 53` carries into the exponent by itself
    let leading := Nat.pow 2 52
    let magnitude := if m < leading then m else (e + 1) * leading + (m - leading)
    if magnitude < 2047 * leading then ⟨UInt64.ofNat magnitude⟩ else infinity

def ofNat (n : Nat) : Binary64 := ofRatio n 1

def ofInt : Int → Binary64
  | .ofNat n => ofNat n
  | .negSucc n => (ofNat (n + 1)).neg

/-! ## Comparison -/

/-- Equal as numbers: the two zeros are, and what is not a number is equal to nothing. -/
def equal (x y : Binary64) : Bool :=
  !x.isNaN && !y.isNaN && (x.bits == y.bits || (x.isZero && y.isZero))

/-- A number whose order is that of the floating-point numbers. -/
def rank (x : Binary64) : UInt64 :=
  if x.isNegative then ~~~x.bits else x.bits ||| 0x8000000000000000

/-- Equal, or at most two steps of rank apart, the difference being taken modulo `2 ^ 64`. -/
def near (x y : Binary64) : Bool :=
  x.equal y ||
    (let difference := x.rank - y.rank
     difference ≤ 2 || 0 - difference ≤ 2)

def isWhole (x : Binary64) : Bool := x.numerator % x.denominator == 0

end Binary64

end Mustache
