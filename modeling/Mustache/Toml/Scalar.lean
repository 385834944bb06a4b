import Mustache.Toml

/-!
# Mustache.Toml.Scalar

Values of the configuration language that are written without quotes: truth values, whole numbers
in four bases, numbers with a fraction or an exponent, dates and times.
-/

namespace Mustache.Toml

/-! ## Numbers -/

/-- Digits, with at most one underscore between two of them. -/
def plainDigits (isDigit : Char → Bool) : List Char → Option (List Char)
  | [] => none
  | [c] => if isDigit c then some [c] else none
  | c :: '_' :: rest =>
    if isDigit c then (plainDigits isDigit rest).map (c :: ·) else none
  | c :: rest => if isDigit c then (plainDigits isDigit rest).map (c :: ·) else none

def isHexDigit (c : Char) : Bool :=
  c.isDigit || ('a' ≤ c && c ≤ 'f') || ('A' ≤ c && c ≤ 'F')

def isOctalDigit (c : Char) : Bool := '0' ≤ c && c ≤ '7'

def isBinaryDigit (c : Char) : Bool := c == '0' || c == '1'

def digitValue (c : Char) : Nat :=
  if c.isDigit then c.toNat - '0'.toNat
  else if 'a' ≤ c then c.toNat - 'a'.toNat + 10
  else c.toNat - 'A'.toNat + 10

def numberIn (base : Nat) (digits : List Char) : Nat :=
  digits.foldl (fun n c => n * base + digitValue c) 0

/-- Digits of a number in base ten, with no zero before the others. -/
def decimalDigits (s : List Char) : Option (List Char) :=
  match plainDigits Char.isDigit s with
  | some ('0' :: _ :: _) => none
  | digits => digits

def inRange (n : Int) : Bool := -(Int.pow 2 127) ≤ n && n < Int.pow 2 128

def unsign (s : List Char) : Bool × List Char :=
  match s with
  | '-' :: rest => (true, rest)
  | '+' :: rest => (false, rest)
  | _ => (false, s)

def integer? (s : List Char) : Option Int :=
  match s with
  | '0' :: 'x' :: rest => (plainDigits isHexDigit rest).map fun ds => (numberIn 16 ds : Int)
  | '0' :: 'o' :: rest => (plainDigits isOctalDigit rest).map fun ds => (numberIn 8 ds : Int)
  | '0' :: 'b' :: rest => (plainDigits isBinaryDigit rest).map fun ds => (numberIn 2 ds : Int)
  | _ =>
    let (negative, rest) := unsign s
    (decimalDigits rest).map fun ds =>
      let n : Int := numberIn 10 ds
      if negative then -n else n

def cutAt (stop : Char → Bool) (s : List Char) : List Char × Option (List Char) :=
  match s.dropWhile (!stop ·) with
  | [] => (s, none)
  | _ :: rest => (s.takeWhile (!stop ·), some rest)

/-- A number with a fraction, an exponent or both; or one of the two that are no finite number. -/
def isNumber (s : List Char) : Bool :=
  let (_, rest) := unsign s
  if rest == ['i', 'n', 'f'] || rest == ['n', 'a', 'n'] then true
  else
    let (mantissa, exponent) := cutAt (fun c => c == 'e' || c == 'E') rest
    let (whole, places) := cutAt (· == '.') mantissa
    let exponentFits := match exponent with
      | none => true
      | some digits => (plainDigits Char.isDigit (unsign digits).2).isSome
    let placesFit := match places with
      | none => true
      | some digits => (plainDigits Char.isDigit digits).isSome
    (exponent.isSome || places.isSome) && exponentFits && placesFit
      && (decimalDigits whole).isSome

/-! ## Dates and times -/

def fixed? (s : List Char) (digits low high : Nat) : Option Nat :=
  if s.length == digits && s.all Char.isDigit then
    let n := numberIn 10 s
    if low ≤ n && n ≤ high then some n else none
  else none

def isLeapYear (year : Nat) : Bool :=
  year % 4 == 0 && (year % 100 != 0 || year % 400 == 0)

def daysIn (year month : Nat) : Nat :=
  if month == 2 then if isLeapYear year then 29 else 28
  else if month == 4 || month == 6 || month == 9 || month == 11 then 30
  else 31

def isDate (s : List Char) : Bool :=
  match s with
  | [y₀, y₁, y₂, y₃, '-', m₀, m₁, '-', d₀, d₁] =>
    match fixed? [y₀, y₁, y₂, y₃] 4 0 9999, fixed? [m₀, m₁] 2 1 12 with
    | some year, some month => (fixed? [d₀, d₁] 2 1 (daysIn year month)).isSome
    | _, _ => false
  | _ => false

/-- A time of day. The seconds may be left out, and may have a fraction. -/
def isTime (s : List Char) : Bool :=
  match s with
  | [h₀, h₁, ':', m₀, m₁] =>
    (fixed? [h₀, h₁] 2 0 23).isSome && (fixed? [m₀, m₁] 2 0 59).isSome
  | h₀ :: h₁ :: ':' :: m₀ :: m₁ :: ':' :: s₀ :: s₁ :: rest =>
    (fixed? [h₀, h₁] 2 0 23).isSome && (fixed? [m₀, m₁] 2 0 59).isSome
      && (fixed? [s₀, s₁] 2 0 60).isSome
      && match rest with
        | [] => true
        | '.' :: digits => !digits.isEmpty && digits.all Char.isDigit
        | _ => false
  | _ => false

def isOffsetTime (s : List Char) : Bool :=
  match s.reverse with
  | 'z' :: rest | 'Z' :: rest => isTime rest.reverse
  | m₁ :: m₀ :: ':' :: h₁ :: h₀ :: sign :: rest =>
    if sign == '+' || sign == '-' then
      isTime rest.reverse && (fixed? [h₀, h₁] 2 0 23).isSome && (fixed? [m₀, m₁] 2 0 59).isSome
    else isTime s
  | _ => isTime s

def isMoment (s : List Char) : Bool :=
  isDate s || isTime s
    || (isDate (s.take 10) &&
      match s.drop 10 with
      | c :: rest => (c == 'T' || c == 't' || c == ' ') && isOffsetTime rest
      | [] => false)

/-! ## Scalars -/

def scalar? (s : List Char) : Option Toml :=
  if s == "true".toList then some (.bool true)
  else if s == "false".toList then some (.bool false)
  else
    match integer? s with
    | some n => if inRange n then some (.integer n) else none
    | none =>
      if isNumber s then some (.number (String.ofList s))
      else if isMoment s then some (.moment (String.ofList s))
      else none

end Mustache.Toml
