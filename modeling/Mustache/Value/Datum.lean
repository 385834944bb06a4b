import Mustache.Error
import Mustache.Value

/-!
# Mustache.Value.Datum

Data of a host program by its shape, and the value that it is for a template. Fields are
enumerated, variants are maps of one key, and what is no finite number is null. The keys of a map
have to be written as text; whole numbers have to fit into 64 bits.
-/

namespace Mustache

inductive Datum where
  | unit
  | bool (b : Bool)
  | integer (n : Int)
  | number (x : Binary64)
  | char (c : Char)
  | text (s : String)
  | bytes (octets : List UInt8)
  | list (items : List Datum)
  | entries (pairs : List (Datum × Datum))
  | fields (pairs : List (String × Datum))
  | unitVariant (name : String)
  | variant (name : String) (content : Datum)
  deriving Repr, Inhabited

namespace Datum

def key : Datum → Except Error String
  | .text s => .ok s
  | .char c => .ok (String.singleton c)
  | .bool b => .ok (if b then "true" else "false")
  | .integer n => .ok (toString n)
  | .unitVariant name => .ok name
  | _ => .error (.invalidContext "key must be a string")

mutual

def toValue : Datum → Except Error Value
  | .unit => .ok .null
  | .bool b => .ok (.bool b)
  | .integer n =>
    if -(Int.pow 2 63) ≤ n ∧ n < UInt64.size then .ok (.integer n)
    else .error (.invalidContext "number out of range")
  | .number x => .ok (if x.isFinite then .number x else .null)
  | .char c => .ok (.text (String.singleton c))
  | .text s => .ok (.text s)
  | .bytes octets => .ok (.list (octets.map fun b => .integer b.toNat))
  | .list items =>
    match toValues items with
    | .error error => .error error
    | .ok values => .ok (.list values)
  | .entries pairs =>
    match entriesToFields pairs [] with
    | .error error => .error error
    | .ok read => .ok (.map read)
  | .fields pairs =>
    match fieldsToFields pairs [] with
    | .error error => .error error
    | .ok read => .ok (.map read)
  | .unitVariant name => .ok (.text name)
  | .variant name content =>
    match toValue content with
    | .error error => .error error
    | .ok value => .ok (.map [(name, value)])

def toValues : List Datum → Except Error (List Value)
  | [] => .ok []
  | item :: items =>
    match toValue item with
    | .error error => .error error
    | .ok value =>
      match toValues items with
      | .error error => .error error
      | .ok values => .ok (value :: values)

def entriesToFields : List (Datum × Datum) → Fields → Except Error Fields
  | [], read => .ok read
  | (k, datum) :: rest, read =>
    match key k with
    | .error error => .error error
    | .ok name =>
      match toValue datum with
      | .error error => .error error
      | .ok value => entriesToFields rest (read.insert name value)

def fieldsToFields : List (String × Datum) → Fields → Except Error Fields
  | [], read => .ok read
  | (name, datum) :: rest, read =>
    match toValue datum with
    | .error error => .error error
    | .ok value => fieldsToFields rest (read.insert name value)

end

end Datum

end Mustache
