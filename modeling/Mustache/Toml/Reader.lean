import Mustache.Toml.Scalar

/-!
# Mustache.Toml.Reader

Reading a document of the configuration language: lines with a header, a key and its value, or
nothing, each with a comment behind it if there is one. A document that cannot be read gives
nothing; what is wrong with it is not said.
-/

namespace Mustache.Toml

/-! ## Characters -/

def isSpace (c : Char) : Bool := c == ' ' || c == '\t'

/-- Characters that a comment or a string in single quotes may hold. -/
def isPrintable (c : Char) : Bool :=
  c == '\t' || (0x20 ≤ c.toNat && c.toNat != 0x7F)

def isBareKeyChar (c : Char) : Bool := c.isAlphanum || c == '_' || c == '-'

def skipSpaces (s : List Char) : List Char := s.dropWhile isSpace

def lineBreak? : List Char → Option (List Char)
  | '\n' :: rest => some rest
  | '\r' :: '\n' :: rest => some rest
  | _ => none

def skipComment (s : List Char) : List Char :=
  match s with
  | '#' :: rest => rest.dropWhile isPrintable
  | _ => s

def skipLines : Nat → List Char → List Char
  | 0, s => s
  | fuel + 1, s =>
    let s := skipComment (skipSpaces s)
    match lineBreak? s with
    | some rest => skipLines fuel rest
    | none => s

/-! ## Strings -/

def hexNumber? (digits : List Char) : Option Char :=
  if digits.all isHexDigit then
    let n := numberIn 16 digits
    if n.isValidChar then some (Char.ofNat n) else none
  else none

def readEscape : List Char → Option (Char × List Char)
  | 'b' :: rest => some ('\x08', rest)
  | 't' :: rest => some ('\t', rest)
  | 'n' :: rest => some ('\n', rest)
  | 'f' :: rest => some ('\x0c', rest)
  | 'r' :: rest => some ('\r', rest)
  | 'e' :: rest => some ('\x1b', rest)
  | '"' :: rest => some ('"', rest)
  | '\\' :: rest => some ('\\', rest)
  | 'x' :: a :: b :: rest => (hexNumber? [a, b]).map (·, rest)
  | 'u' :: a :: b :: c :: d :: rest => (hexNumber? [a, b, c, d]).map (·, rest)
  | 'U' :: a :: b :: c :: d :: e :: f :: g :: h :: rest =>
    (hexNumber? [a, b, c, d, e, f, g, h]).map (·, rest)
  | _ => none

def readBasic : Nat → List Char → Option (List Char × List Char)
  | 0, _ => none
  | _, [] => none
  | fuel + 1, c :: rest =>
    if c = '"' then some ([], rest)
    else if c = '\\' then
      match readEscape rest with
      | none => none
      | some (e, rest) => (readBasic fuel rest).map fun (s, rest) => (e :: s, rest)
    else if isPrintable c then (readBasic fuel rest).map fun (s, rest) => (c :: s, rest)
    else none

def readLiteral : List Char → Option (List Char × List Char)
  | [] => none
  | c :: rest =>
    if c = '\'' then some ([], rest)
    else if isPrintable c then (readLiteral rest).map fun (s, rest) => (c :: s, rest)
    else none

/-- The end of a string in three quotes: up to two more quotes before the three belong to it. -/
def closing (quote : Char) (s : List Char) : Option (List Char × List Char) :=
  let run := (s.takeWhile (· == quote)).length
  if run < 3 then none
  else
    let inside := min (run - 3) 2
    some (List.replicate inside quote, s.drop (inside + 3))

/-- The text behind a backslash at the end of a line: the blanks at the start of the next lines
are left out as well. -/
def continued? (s : List Char) : Option (List Char) :=
  match lineBreak? (skipSpaces s) with
  | none => none
  | some rest => some (rest.dropWhile fun c => isSpace c || c == '\n' || c == '\r')

def readLongBasic : Nat → List Char → Option (List Char × List Char)
  | 0, _ => none
  | _, [] => none
  | fuel + 1, c :: rest =>
    match lineBreak? (c :: rest), closing '"' (c :: rest) with
    | some rest, _ => (readLongBasic fuel rest).map fun (s, rest) => ('\n' :: s, rest)
    | none, some result => some result
    | none, none =>
      if c = '\\' then
        match continued? rest with
        | some rest => readLongBasic fuel rest
        | none =>
          match readEscape rest with
          | none => none
          | some (e, rest) => (readLongBasic fuel rest).map fun (s, rest) => (e :: s, rest)
      else if isPrintable c then (readLongBasic fuel rest).map fun (s, rest) => (c :: s, rest)
      else none

def readLongLiteral : Nat → List Char → Option (List Char × List Char)
  | 0, _ => none
  | _, [] => none
  | fuel + 1, c :: rest =>
    match lineBreak? (c :: rest), closing '\'' (c :: rest) with
    | some rest, _ => (readLongLiteral fuel rest).map fun (s, rest) => ('\n' :: s, rest)
    | none, some result => some result
    | none, none =>
      if isPrintable c then (readLongLiteral fuel rest).map fun (s, rest) => (c :: s, rest)
      else none

/-- A line break right behind the opening quotes is no part of the string. -/
def skipFirstBreak (s : List Char) : List Char := (lineBreak? s).getD s

/-- A string on one line, as keys use them too. -/
def readShortString (s : List Char) : Option (String × List Char) :=
  match s with
  | '"' :: rest => (readBasic s.length rest).map fun (s, rest) => (String.ofList s, rest)
  | '\'' :: rest => (readLiteral rest).map fun (s, rest) => (String.ofList s, rest)
  | _ => none

def readAnyString (s : List Char) : Option (String × List Char) :=
  match s with
  | '"' :: '"' :: '"' :: rest =>
    (readLongBasic s.length (skipFirstBreak rest)).map fun (s, rest) => (String.ofList s, rest)
  | '\'' :: '\'' :: '\'' :: rest =>
    (readLongLiteral s.length (skipFirstBreak rest)).map fun (s, rest) =>
      (String.ofList s, rest)
  | _ => readShortString s

/-! ## Keys -/

def readKeyPart (s : List Char) : Option (String × List Char) :=
  let bare := s.takeWhile isBareKeyChar
  if bare.isEmpty then readShortString s
  else some (String.ofList bare, s.dropWhile isBareKeyChar)

def readKey : Nat → List Char → Option (List String × List Char)
  | 0, _ => none
  | fuel + 1, s =>
    match readKeyPart (skipSpaces s) with
    | none => none
    | some (part, rest) =>
      match skipSpaces rest with
      | '.' :: rest => (readKey fuel rest).map fun (parts, rest) => (part :: parts, rest)
      | rest => some ([part], rest)

/-! ## Values -/

def maxDepth : Nat := 80

def isScalarChar (c : Char) : Bool :=
  c.isAlphanum || c == '_' || c == '+' || c == '-' || c == '.' || c == ':'

/-- A value without quotes. A date and a time may have a blank between them. -/
def readScalar (s : List Char) : Option (Toml × List Char) :=
  let first := s.takeWhile isScalarChar
  let rest := s.dropWhile isScalarChar
  match isDate first, rest with
  | true, ' ' :: d :: more =>
    if d.isDigit then
      let both := first ++ ' ' :: (d :: more).takeWhile isScalarChar
      (scalar? both).map (·, (d :: more).dropWhile isScalarChar)
    else (scalar? first).map (·, rest)
  | _, _ => (scalar? first).map (·, rest)

mutual

def readValue : (fuel depth : Nat) → List Char → Option (Toml × List Char)
  | 0, _, _ => none
  | fuel + 1, depth, s =>
    match s with
    | '"' :: _ | '\'' :: _ => (readAnyString s).map fun (s, rest) => (.string s, rest)
    | '[' :: rest =>
      if depth = 0 then none
      else (readItems fuel (depth - 1) rest).map fun (items, rest) => (.array items, rest)
    | '\x7b' :: rest =>
      if depth = 0 then none
      else
        (readMembers fuel (depth - 1) [] rest).map fun (members, rest) =>
          (.table (Members.toTomls members), rest)
    | _ => readScalar s

def readItems : (fuel depth : Nat) → List Char → Option (List Toml × List Char)
  | 0, _, _ => none
  | fuel + 1, depth, s =>
    match skipLines s.length s with
    | ']' :: rest => some ([], rest)
    | s =>
      match readValue fuel depth s with
      | none => none
      | some (item, rest) =>
        match skipLines rest.length rest with
        | ',' :: rest => (readItems fuel depth rest).map fun (items, rest) => (item :: items, rest)
        | ']' :: rest => some ([item], rest)
        | _ => none

def readMembers : (fuel depth : Nat) → Members → List Char → Option (Members × List Char)
  | 0, _, _, _ => none
  | fuel + 1, depth, members, s =>
    match skipLines s.length s with
    | '\x7d' :: rest => some (members, rest)
    | s =>
      match readKey s.length s with
      | some (key, '=' :: rest) =>
        match readValue fuel depth (skipSpaces rest) with
        | none => none
        | some (value, rest) =>
          match members.insert value key, skipLines rest.length rest with
          | some members, ',' :: rest => readMembers fuel depth members rest
          | some members, '\x7d' :: rest => some (members, rest)
          | _, _ => none
      | _ => none

end

/-! ## Documents -/

/-- A document up to some line: its tables, and the header of the table that the lines add to. -/
structure Document where
  root : Members
  header : List String

def Document.addValue (d : Document) (key : List String) (value : Toml) : Option Document :=
  (d.root.descend (fun table => table.insert value key) d.header).map fun root =>
    { d with root := root }

/-- Opens the table of a header, in double brackets when it is one of several. -/
def Document.openHeader (d : Document) (several : Bool) (key : List String) : Option Document :=
  match key.getLast? with
  | none => none
  | some last =>
    let change := if several then Members.openAnother last else Members.openTable last
    (d.root.descend change key.dropLast).map fun root => ⟨root, key⟩

def readLine (d : Document) (s : List Char) : Option (Document × List Char) :=
  match s with
  | [] => some (d, s)
  | '#' :: _ => some (d, s)
  | '[' :: '[' :: rest =>
    match readKey rest.length rest with
    | some (key, ']' :: ']' :: rest) => (d.openHeader true key).map (·, rest)
    | _ => none
  | '[' :: rest =>
    match readKey rest.length rest with
    | some (key, ']' :: rest) => (d.openHeader false key).map (·, rest)
    | _ => none
  | _ =>
    if (lineBreak? s).isSome then some (d, s)
    else
      match readKey s.length s with
      | some (key, '=' :: rest) =>
        match readValue (3 * rest.length + 3) maxDepth (skipSpaces rest) with
        | some (value, rest) => (d.addValue key value).map (·, rest)
        | none => none
      | _ => none

def readLines : Nat → Document → List Char → Option Document
  | 0, _, _ => none
  | fuel + 1, d, s =>
    match readLine d (skipSpaces s) with
    | none => none
    | some (d, rest) =>
      let rest := skipComment (skipSpaces rest)
      match lineBreak? rest, rest with
      | some rest, _ => readLines fuel d rest
      | none, [] => some d
      | none, _ => none

/-- The table of a document. A mark of the byte order may stand before it. -/
def read (s : List Char) : Option (List (String × Toml)) :=
  let s := match s with
    | '\ufeff' :: rest => rest
    | _ => s
  (readLines (s.length + 1) ⟨[], []⟩ s).map fun d => Members.toTomls d.root

end Mustache.Toml
