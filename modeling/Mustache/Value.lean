import Mustache.Number.Decimal

/-!
# Mustache.Value

What templates read from: the values of a data format, with whole numbers kept exact, and handles
for the lambdas and records that the host program supplies. A map is kept in the order of its
keys and holds each key once (`Fields.insert`).

The text that a value is interpolated as is `Value.text`; `Value.isTruthy` decides whether a
section is written; `Value.equal` compares numbers of both kinds with each other, and handles by
identity.
-/

namespace Mustache

/-- A function of the host program, known by its number. -/
structure Lambda where
  id : Nat
  deriving DecidableEq, Repr

/-- A record of the host program, known by its number. -/
structure Record where
  id : Nat
  deriving DecidableEq, Repr

inductive Value where
  | null
  | bool (b : Bool)
  | integer (n : Int)
  | number (x : Binary64)
  | text (s : String)
  | list (items : List Value)
  | map (fields : List (String × Value))
  | lambda (lambda : Lambda)
  | record (record : Record)
  deriving Repr, Inhabited

/-! ## Maps -/

/-- The fields of a map, in the order of their keys. -/
abbrev Fields := List (String × Value)

namespace Fields

def get? : Fields → String → Option Value
  | [], _ => none
  | (k, v) :: rest, key => if k = key then some v else get? rest key

def insert : Fields → String → Value → Fields
  | [], key, value => [(key, value)]
  | (k, v) :: rest, key, value =>
    if key = k then (key, value) :: rest
    else if key < k then (key, value) :: (k, v) :: rest
    else (k, v) :: insert rest key value

/-- The last value under a key counts. -/
def ofList (pairs : List (String × Value)) : Fields :=
  pairs.foldl (fun fields (key, value) => fields.insert key value) []

theorem get?_insert (fields : Fields) (key : String) (value : Value) (k : String) :
    (fields.insert key value).get? k = if key = k then some value else fields.get? k := by
  induction fields with
  | nil => simp [insert, get?]
  | cons field rest ih =>
    simp only [insert]
    split
    · rename_i h
      subst h
      simp only [get?]
      split <;> rfl
    · rename_i h
      split
      · rfl
      · simp only [get?, ih]
        split
        · rename_i hk
          subst hk
          rw [if_neg h]
        · rfl

end Fields

namespace Value

/-- Null, `false` and the empty list are falsy. -/
def isTruthy : Value → Bool
  | .null => false
  | .bool b => b
  | .list items => !items.isEmpty
  | _ => true

def isNull : Value → Bool
  | .null => true
  | _ => false

def text? : Value → Option String
  | .text s => some s
  | _ => none

/-! ## Text -/

/-- A finite number without a fraction below `10 ^ 15` is written as an integer. -/
def numberText (x : Binary64) : String :=
  if x.isFinite && x.isWhole && x.numerator < Nat.pow 10 15 * x.denominator then
    let n : Int := (x.numerator / x.denominator : Nat)
    toString (if x.isNegative then -n else n)
  else x.text

def interpolated : Value → String
  | .bool true => "true"
  | .integer n => toString n
  | .number x => numberText x
  | .text s => s
  | _ => ""

def lambdaLabel : String := "Lambda(Lambda(..))"

/-! ## Indices -/

def digitsValue : List Char → Nat → Option Nat
  | [], n => some n
  | c :: cs, n => if c.isDigit then digitsValue cs (n * 10 + (c.toNat - '0'.toNat)) else none

/-- The index that a key stands for in a list: digits, after an optional plus, below `2 ^ 64`. -/
def index? (key : String) : Option Nat :=
  let digits := match key.toList with
    | '+' :: rest => rest
    | all => all
  if digits.isEmpty then none
  else
    match digitsValue digits 0 with
    | some n => if n < UInt64.size then some n else none
    | none => none

/-! ## Equality -/

mutual

def equal : Value → Value → Bool
  | .null, .null => true
  | .bool a, .bool b => a == b
  | .integer a, .integer b => a == b
  | .number a, .number b => a.near b
  | .integer a, .number b => (Binary64.ofInt a).near b
  | .number a, .integer b => (Binary64.ofInt b).near a
  | .text a, .text b => a == b
  | .list a, .list b => equalItems a b
  | .map a, .map b => equalFields a b
  | .lambda a, .lambda b => a == b
  | .record a, .record b => a == b
  | _, _ => false

def equalItems : List Value → List Value → Bool
  | [], [] => true
  | a :: as, b :: bs => equal a b && equalItems as bs
  | _, _ => false

def equalFields : List (String × Value) → List (String × Value) → Bool
  | [], [] => true
  | (j, a) :: as, (k, b) :: bs => j == k && equal a b && equalFields as bs
  | _, _ => false

end

end Value

end Mustache
