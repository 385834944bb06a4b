import Mustache.Number.Binary64
import Mustache.Value

/-!
# Mustache.Json

The values of the data format that templates, trees and contexts are written in, and how they are
printed: on one line without blanks, or on many with an indentation of two blanks.
-/

namespace Mustache

inductive Json where
  | null
  | bool (b : Bool)
  | integer (n : Int)
  | number (x : Binary64)
  | string (s : String)
  | array (items : List Json)
  /-- Members in the order of the text; a name may occur more than once. -/
  | object (members : List (String × Json))
  deriving Repr, Inhabited

namespace Json

/-! ## Printing -/

def hexDigit (n : Nat) : Char := Nat.digitChar (n % 16)

def escaped (c : Char) : List Char :=
  match c with
  | '"' => ['\\', '"']
  | '\\' => ['\\', '\\']
  | '\x08' => ['\\', 'b']
  | '\x0c' => ['\\', 'f']
  | '\n' => ['\\', 'n']
  | '\r' => ['\\', 'r']
  | '\t' => ['\\', 't']
  | _ =>
    if c.toNat < 0x20 then ['\\', 'u', '0', '0', hexDigit (c.toNat / 16), hexDigit c.toNat]
    else [c]

def printString (s : String) : List Char :=
  '"' :: s.toList.flatMap escaped ++ ['"']

def printBool (b : Bool) : List Char :=
  if b then "true".toList else "false".toList

mutual

def compact : Json → List Char
  | .null => "null".toList
  | .bool b => printBool b
  | .integer n => (toString n).toList
  | .number x => x.text.toList
  | .string s => printString s
  | .array [] => ['[', ']']
  | .array (item :: items) => '[' :: compact item ++ compactItems items
  | .object [] => ['\x7b', '\x7d']
  | .object ((name, value) :: members) =>
    '\x7b' :: printString name ++ ':' :: compact value ++ compactMembers members

/-- The items after the first, and the end of the array. -/
def compactItems : List Json → List Char
  | [] => [']']
  | item :: items => ',' :: compact item ++ compactItems items

def compactMembers : List (String × Json) → List Char
  | [] => ['\x7d']
  | (name, value) :: members =>
    ',' :: printString name ++ ':' :: compact value ++ compactMembers members

end

def newline (level : Nat) : List Char :=
  '\n' :: List.replicate (2 * level) ' '

mutual

def pretty (level : Nat) : Json → List Char
  | .null => "null".toList
  | .bool b => printBool b
  | .integer n => (toString n).toList
  | .number x => x.text.toList
  | .string s => printString s
  | .array [] => ['[', ']']
  | .array (item :: items) =>
    '[' :: newline (level + 1) ++ pretty (level + 1) item ++ prettyItems level items
  | .object [] => ['\x7b', '\x7d']
  | .object ((name, value) :: members) =>
    '\x7b' :: newline (level + 1) ++ printString name ++ ':' :: ' ' :: pretty (level + 1) value
      ++ prettyMembers level members

def prettyItems (level : Nat) : List Json → List Char
  | [] => newline level ++ [']']
  | item :: items =>
    ',' :: newline (level + 1) ++ pretty (level + 1) item ++ prettyItems level items

def prettyMembers (level : Nat) : List (String × Json) → List Char
  | [] => newline level ++ ['\x7d']
  | (name, value) :: members =>
    ',' :: newline (level + 1) ++ printString name ++ ':' :: ' ' :: pretty (level + 1) value
      ++ prettyMembers level members

end

/-! ## Depth -/

mutual

/-- How many arrays and objects are open at once, at most. -/
def depth : Json → Nat
  | .array items => 1 + depthItems items
  | .object members => 1 + depthMembers members
  | _ => 0

def depthItems : List Json → Nat
  | [] => 0
  | item :: items => max (depth item) (depthItems items)

def depthMembers : List (String × Json) → Nat
  | [] => 0
  | (_, value) :: members => max (depth value) (depthMembers members)

end

/-! ## What cannot be read -/

/-- What stands for a value in a text that is well-formed and cannot be read. No text is read as
this number. -/
def unreadable : Json := .number .infinity

mutual

def isReadable : Json → Bool
  | .number x => x.isFinite
  | .array items => areReadable items
  | .object members => membersReadable members
  | _ => true

def areReadable : List Json → Bool
  | [] => true
  | item :: items => isReadable item && areReadable items

def membersReadable : List (String × Json) → Bool
  | [] => true
  | (_, value) :: members => isReadable value && membersReadable members

end

mutual

/-- The value where there is room for so many arrays and objects that are open at once. -/
def within (room : Nat) : Json → Json
  | .array items =>
    match room with
    | 0 => unreadable
    | room + 1 => .array (withinItems room items)
  | .object members =>
    match room with
    | 0 => unreadable
    | room + 1 => .object (withinMembers room members)
  | j => j

def withinItems (room : Nat) : List Json → List Json
  | [] => []
  | item :: items => within room item :: withinItems room items

def withinMembers (room : Nat) : List (String × Json) → List (String × Json)
  | [] => []
  | (name, value) :: members => (name, within room value) :: withinMembers room members

end

/-- A value that is read in full before it is known what it holds. -/
def whole? (j : Json) : Option Json := if j.isReadable then some j else none

/-! ## Fields -/

def valuesOf (members : List (String × Json)) (name : String) : List Json :=
  members.filterMap fun (k, v) => if k = name then some v else none

/-- The fields with the given names, in their order. An object may hold other names too, but no
name of these twice; an array holds the fields in order and may end early. -/
def fields? (names : List String) : Json → Option (List (Option Json))
  | .object members =>
    names.mapM fun name =>
      match valuesOf members name with
      | [] => some none
      | [value] => some (some value)
      | _ => none
  | .array items =>
    if items.length ≤ names.length then
      some (items.map some ++ List.replicate (names.length - items.length) none)
    else none
  | _ => none

/-- The tag of a variant, and what is left of it without the tag. -/
def variant? (tag : String) : Json → Option (String × Json)
  | .object members =>
    match valuesOf members tag with
    | [.string kind] => some (kind, .object (members.filter (·.1 != tag)))
    | _ => none
  | .array (.string kind :: items) => some (kind, .array items)
  | _ => none

def string? : Json → Option String
  | .string s => some s
  | _ => none

def bool? : Json → Option Bool
  | .bool b => some b
  | _ => none

def nat? : Json → Option Nat
  | .integer (.ofNat n) => if n < UInt64.size then some n else none
  | _ => none

def word? (j : Json) : Option UInt64 := j.nat?.map UInt64.ofNat

/-! ## Values -/

mutual

/-- The value that a context is made of. The last of the members with one name counts. -/
def toValue : Json → Value
  | .null => .null
  | .bool b => .bool b
  | .integer n => .integer n
  | .number x => .number x
  | .string s => .text s
  | .array items => .list (toValues items)
  | .object members => .map (toFields [] members)

def toValues : List Json → List Value
  | [] => []
  | item :: items => toValue item :: toValues items

def toFields (fields : Fields) : List (String × Json) → Fields
  | [] => fields
  | (name, value) :: members => toFields (fields.insert name (toValue value)) members

end

end Json

end Mustache
