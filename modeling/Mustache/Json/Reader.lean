import Mustache.Json
import Mustache.Number.Scaled

/-!
# Mustache.Json.Reader

Reading the data format. A text is cut into lexemes (`lexemes`), which are then nested: `run` takes
one lexeme at a time, with the arrays and objects that are open on a stack.

What is well-formed may still not be readable: a number that is too large, a text with half of a
surrogate pair, and what has more than `maxDepth` arrays and objects open. `read` refuses a text
that holds any of this. `skim` reads it with `unreadable` in such places, for a reader that does not
need all of it.
-/

namespace Mustache.Json

/-! ## Lexemes -/

inductive Lexeme where
  /-- A value that is neither in quotes nor nested. -/
  | value (json : Json)
  /-- What is in quotes, and the text that it stands for, if any. -/
  | text (s : Option String)
  | openArray
  | closeArray
  | openObject
  | closeObject
  | comma
  | colon
  deriving Repr

def isBlank (c : Char) : Bool := c == ' ' || c == '\n' || c == '\t' || c == '\r'

def hexValue (c : Char) : Option Nat :=
  if '0' ≤ c ∧ c ≤ '9' then some (c.toNat - '0'.toNat)
  else if 'a' ≤ c ∧ c ≤ 'f' then some (c.toNat - 'a'.toNat + 10)
  else if 'A' ≤ c ∧ c ≤ 'F' then some (c.toNat - 'A'.toNat + 10)
  else none

def hex4 (a b c d : Char) : Option Nat :=
  match hexValue a, hexValue b, hexValue c, hexValue d with
  | some a, some b, some c, some d => some (((a * 16 + b) * 16 + c) * 16 + d)
  | _, _, _, _ => none

def simpleEscape : Char → Option Char
  | '"' => some '"'
  | '\\' => some '\\'
  | '/' => some '/'
  | 'b' => some '\x08'
  | 'f' => some '\x0c'
  | 'n' => some '\n'
  | 'r' => some '\r'
  | 't' => some '\t'
  | _ => none

/-- What a text in quotes is made of: characters, and halves of surrogate pairs. -/
inductive Part where
  | char (c : Char)
  | half (n : Nat)
  deriving Repr

def Part.ofCode (n : Nat) : Part :=
  if 0xD800 ≤ n ∧ n < 0xE000 then .half n else .char (Char.ofNat n)

def readString : List Char → Option (List Part × List Char)
  | '"' :: rest => some ([], rest)
  | '\\' :: 'u' :: a :: b :: c :: d :: rest =>
    match hex4 a b c d with
    | none => none
    | some n => (readString rest).map fun (s, rest) => (.ofCode n :: s, rest)
  | '\\' :: c :: rest =>
    match simpleEscape c with
    | none => none
    | some c => (readString rest).map fun (s, rest) => (.char c :: s, rest)
  | c :: rest =>
    if c.toNat < 0x20 ∨ c = '\\' then none
    else (readString rest).map fun (s, rest) => (.char c :: s, rest)
  | [] => none

/-- The text with these parts, if each half stands in a pair. -/
def joinParts : List Part → Option (List Char)
  | [] => some []
  | .char c :: parts => (joinParts parts).map (c :: ·)
  | .half n :: .half m :: parts =>
    if n < 0xDC00 ∧ 0xDC00 ≤ m then
      (joinParts parts).map (Char.ofNat (0x10000 + (n - 0xD800) * 0x400 + (m - 0xDC00)) :: ·)
    else none
  | .half _ :: _ => none

/-! ### Numbers -/

structure Literal where
  negative : Bool
  whole : List Char
  places : Option (List Char)
  exponent : Option (Bool × List Char)
  deriving Repr

def digitsOf (s : List Char) : List Char × List Char :=
  (s.takeWhile Char.isDigit, s.dropWhile Char.isDigit)

def digitValue (c : Char) : Nat := c.toNat - '0'.toNat

def readPlaces (s : List Char) : Option (Option (List Char) × List Char) :=
  match s with
  | '.' :: rest =>
    let (digits, rest) := digitsOf rest
    if digits.isEmpty then none else some (some digits, rest)
  | _ => some (none, s)

def readSign (s : List Char) : Bool × List Char :=
  match s with
  | '-' :: rest => (true, rest)
  | '+' :: rest => (false, rest)
  | _ => (false, s)

def readExponent (s : List Char) : Option (Option (Bool × List Char) × List Char) :=
  match s with
  | [] => some (none, s)
  | e :: rest =>
    if e = 'e' ∨ e = 'E' then
      let (negative, rest) := readSign rest
      let (digits, rest) := digitsOf rest
      if digits.isEmpty then none else some (some (negative, digits), rest)
    else some (none, s)

/-- A number without its sign; no zero stands before its other digits. -/
def readUnsigned (negative : Bool) (s : List Char) : Option (Literal × List Char) :=
  let (whole, s) := digitsOf s
  match whole with
  | [] => none
  | '0' :: _ :: _ => none
  | _ =>
    match readPlaces s with
    | none => none
    | some (places, s) =>
      match readExponent s with
      | none => none
      | some (exponent, s) => some (⟨negative, whole, places, exponent⟩, s)

def readLiteral : List Char → Option (Literal × List Char)
  | '-' :: rest => readUnsigned true rest
  | s => readUnsigned false s

/-- Appends digits to a number while it stays below `2 ^ 64`, and gives those that are left. -/
def appendDigits (n : Nat) : List Char → Nat × List Char
  | [] => (n, [])
  | c :: cs =>
    let m := n * 10 + digitValue c
    if m < UInt64.size then appendDigits m cs else (n, c :: cs)

def naturalOf (digits : List Char) : Nat :=
  digits.foldl (fun n c => n * 10 + digitValue c) 0

/-- A number without point and exponent is an integer when 64 bits hold it; minus zero is not. -/
def Literal.toJson (l : Literal) : Option Json :=
  let (n, dropped) := appendDigits 0 l.whole
  let signed (x : Binary64) : Json := .number (if l.negative then x.neg else x)
  match l.places, l.exponent, dropped with
  | none, none, [] =>
    if !l.negative then some (.integer n)
    else if n = 0 ∨ Nat.pow 2 63 < n then some (signed (.ofNat n))
    else some (.integer (-n))
  | places, exponent, _ =>
    let digits := places.getD []
    let (n, unused) := appendDigits n digits
    let scale : Int := dropped.length - (digits.length - unused.length : Nat)
    let scale := match exponent with
      | none => scale
      | some (true, digits) => scale - naturalOf digits
      | some (false, digits) => scale + naturalOf digits
    (Binary64.ofScaled n scale).map signed

def readNumber (s : List Char) : Option (Json × List Char) :=
  match readLiteral s with
  | none => none
  | some (literal, rest) => some (literal.toJson.getD unreadable, rest)

/-! ### Cutting a text -/

/-- The first lexeme of a text that begins with neither a blank nor a quote. -/
def readLexeme : List Char → Option (Lexeme × List Char)
  | '[' :: rest => some (.openArray, rest)
  | ']' :: rest => some (.closeArray, rest)
  | '\x7b' :: rest => some (.openObject, rest)
  | '\x7d' :: rest => some (.closeObject, rest)
  | ',' :: rest => some (.comma, rest)
  | ':' :: rest => some (.colon, rest)
  | '"' :: rest => (readString rest).map fun (s, rest) => (.text ((joinParts s).map .ofList), rest)
  | 'n' :: 'u' :: 'l' :: 'l' :: rest => some (.value .null, rest)
  | 't' :: 'r' :: 'u' :: 'e' :: rest => some (.value (.bool true), rest)
  | 'f' :: 'a' :: 'l' :: 's' :: 'e' :: rest => some (.value (.bool false), rest)
  | s => (readNumber s).map fun (json, rest) => (.value json, rest)

/-! ### Lexemes are not empty -/

theorem length_of_readString {s rest : List Char} {parts : List Part}
    (h : readString s = some (parts, rest)) : rest.length < s.length := by
  fun_induction readString s generalizing parts rest with
  | case1 => cases h; simp
  | case2 => cases h
  | case3 a b c d rest n hn ih =>
    obtain ⟨⟨s, r⟩, hp, heq⟩ := Option.map_eq_some_iff.1 h
    cases heq
    have := ih hp
    simp only [List.length_cons]
    omega
  | case4 => cases h
  | case5 d rest hne c hc ih =>
    obtain ⟨⟨s, r⟩, hp, heq⟩ := Option.map_eq_some_iff.1 h
    cases heq
    have := ih hp
    simp only [List.length_cons]
    omega
  | case6 => cases h
  | case7 d rest h₁ h₂ h₃ h₄ ih =>
    obtain ⟨⟨s, r⟩, hp, heq⟩ := Option.map_eq_some_iff.1 h
    cases heq
    have := ih hp
    simp only [List.length_cons]
    omega
  | case8 => cases h

theorem length_digitsOf (s : List Char) :
    (digitsOf s).1.length + (digitsOf s).2.length = s.length := by
  simp only [digitsOf]
  rw [← List.length_append, List.takeWhile_append_dropWhile]

theorem length_of_readPlaces {s rest : List Char} {p : Option (List Char)}
    (h : readPlaces s = some (p, rest)) : rest.length ≤ s.length := by
  unfold readPlaces at h
  split at h
  · rename_i t
    have := length_digitsOf t
    simp only at h
    split at h <;> cases h
    simp only [List.length_cons]
    omega
  · cases h
    exact Nat.le_refl _

theorem length_readSign (s : List Char) : (readSign s).2.length ≤ s.length := by
  unfold readSign
  split <;> simp

theorem length_of_readExponent {s rest : List Char} {e : Option (Bool × List Char)}
    (h : readExponent s = some (e, rest)) : rest.length ≤ s.length := by
  unfold readExponent at h
  split at h
  · cases h
    exact Nat.le_refl _
  · rename_i c t
    have h₁ := length_readSign t
    have h₂ := length_digitsOf (readSign t).2
    split at h
    · simp only at h
      split at h <;> cases h
      simp only [List.length_cons]
      omega
    · cases h
      exact Nat.le_refl _

theorem length_of_readUnsigned {s rest : List Char} {b : Bool} {l : Literal}
    (h : readUnsigned b s = some (l, rest)) : rest.length < s.length := by
  have hd := length_digitsOf s
  simp only [readUnsigned] at h
  split at h
  · cases h
  · cases h
  · rename_i hne _
    split at h
    · cases h
    · rename_i hp
      have h₁ := length_of_readPlaces hp
      split at h
      · cases h
      · rename_i he
        have h₂ := length_of_readExponent he
        cases h
        have : (digitsOf s).1.length ≠ 0 := fun h => hne (List.length_eq_zero_iff.1 h)
        omega

theorem length_of_readNumber {s rest : List Char} {j : Json}
    (h : readNumber s = some (j, rest)) : rest.length < s.length := by
  unfold readNumber at h
  split at h
  · cases h
  · rename_i l t hl
    cases h
    unfold readLiteral at hl
    split at hl
    · have := length_of_readUnsigned hl
      simp only [List.length_cons]
      omega
    · exact length_of_readUnsigned hl

theorem length_of_readLexeme {s rest : List Char} {l : Lexeme}
    (h : readLexeme s = some (l, rest)) : rest.length < s.length := by
  unfold readLexeme at h
  split at h
  case h_7 =>
    obtain ⟨⟨c, r⟩, hs, heq⟩ := Option.map_eq_some_iff.1 h
    cases heq
    have := length_of_readString hs
    simp only [List.length_cons]
    omega
  case h_11 =>
    obtain ⟨⟨j, r⟩, hn, heq⟩ := Option.map_eq_some_iff.1 h
    cases heq
    exact length_of_readNumber hn
  all_goals
    cases h
    simp only [List.length_cons]
    omega

def lexemes (s : List Char) : Option (List Lexeme) :=
  match s with
  | [] => some []
  | c :: cs =>
    if isBlank c then lexemes cs
    else
      match _h : readLexeme (c :: cs) with
      | none => none
      | some (lexeme, rest) => (lexemes rest).map (lexeme :: ·)
termination_by s.length
decreasing_by
  · simp
  · exact length_of_readLexeme _h

/-! ## Nesting -/

def maxDepth : Nat := 127

/-- An array or an object that is open, with what it holds so far, latest first. An object holds
nothing once a name in it cannot be read. -/
inductive Frame where
  | array (items : List Json)
  | object (members : Option (List (String × Json)))
  /-- An object in which the value under `name` comes next. -/
  | member (members : Option (List (String × Json))) (name : Option String)
  deriving Repr

/-- What has been read last, or what may come next. -/
inductive Stage where
  | complete (json : Json)
  | value
  | valueOrClose
  | name
  | nameOrClose
  | colon (name : Option String)
  deriving Repr

def addMember (name : Option String) (json : Json) :
    Option (List (String × Json)) → Option (List (String × Json))
  | none => none
  | some members => name.map fun name => (name, json) :: members

def closeObject : Option (List (String × Json)) → Json
  | none => unreadable
  | some members => .object members.reverse

def begin (stack : List Frame) : Lexeme → Option (Stage × List Frame)
  | .value json => some (.complete json, stack)
  | .text s => some (.complete ((s.map .string).getD unreadable), stack)
  | .openArray => some (.valueOrClose, .array [] :: stack)
  | .openObject => some (.nameOrClose, .object (some []) :: stack)
  | _ => none

def step : Stage → List Frame → Lexeme → Option (Stage × List Frame)
  | .value, stack, lexeme => begin stack lexeme
  | .valueOrClose, .array items :: stack, .closeArray =>
    some (.complete (.array items.reverse), stack)
  | .valueOrClose, stack, lexeme => begin stack lexeme
  | .name, stack, .text name => some (.colon name, stack)
  | .nameOrClose, stack, .text name => some (.colon name, stack)
  | .nameOrClose, .object members :: stack, .closeObject =>
    some (.complete (closeObject members), stack)
  | .colon name, .object members :: stack, .colon => some (.value, .member members name :: stack)
  | .complete json, .array items :: stack, .comma => some (.value, .array (json :: items) :: stack)
  | .complete json, .array items :: stack, .closeArray =>
    some (.complete (.array (json :: items).reverse), stack)
  | .complete json, .member members name :: stack, .comma =>
    some (.name, .object (addMember name json members) :: stack)
  | .complete json, .member members name :: stack, .closeObject =>
    some (.complete (closeObject (addMember name json members)), stack)
  | _, _, _ => none

def run (stage : Stage) (stack : List Frame) : List Lexeme → Option (Stage × List Frame)
  | [] => some (stage, stack)
  | lexeme :: more =>
    match step stage stack lexeme with
    | none => none
    | some (stage, stack) => run stage stack more

/-- The value in a text, with `unreadable` for what cannot be read. -/
def skim (s : List Char) : Option Json :=
  match lexemes s with
  | none => none
  | some ls =>
    match run .value [] ls with
    | some (.complete json, []) => some (json.within maxDepth)
    | _ => none

/-- The value in a text that can be read in full. -/
def read (s : List Char) : Option Json := (skim s).filter isReadable

end Mustache.Json
