import Mustache.Number.Binary64

/-!
# Mustache.Number.Scaled

Reading a decimal, given as a natural number and a power of ten. The number is rounded first, and
its product or quotient with the rounded power of ten once more; below the range of the powers of
ten the quotient is taken in several steps.
-/

namespace Mustache.Binary64

def product (x y : Binary64) : Binary64 :=
  ofRatio (x.numerator * y.numerator) (x.denominator * y.denominator)

def quotient (x y : Binary64) : Binary64 :=
  ofRatio (x.numerator * y.denominator) (x.denominator * y.numerator)

def powerOfTen (k : Nat) : Binary64 := ofNat (Nat.pow 10 k)

def maxPower : Nat := 308

def dividedByPower (x : Binary64) (k : Nat) : Binary64 :=
  if k ≤ maxPower then x.quotient (powerOfTen k)
  else if x.isZero then x
  else dividedByPower (x.quotient (powerOfTen maxPower)) (k - maxPower)
termination_by k
decreasing_by simp only [maxPower] at *; omega

/-- `n · 10 ^ exponent`, unless that is too large. -/
def ofScaled (n : Nat) (exponent : Int) : Option Binary64 :=
  let x := ofNat n
  match exponent with
  | .ofNat k =>
    if k ≤ maxPower then
      let y := x.product (powerOfTen k)
      if y.isInfinite then none else some y
    else if x.isZero then some x
    else none
  | .negSucc k => some (x.dividedByPower (k + 1))

end Mustache.Binary64
