/-!
# Mustache.Toml

The values of the configuration language, and how the tables of a document come about.

A table arises from its own header, from a longer header that passes through it, or from a dotted
key. A key is given once. A header may go into tables of every origin, but opens each table once;
a dotted key adds to no table but those of dotted keys, though it may pass through one that longer
headers passed through.
-/

namespace Mustache

inductive Toml where
  | string (s : String)
  | integer (n : Int)
  /-- A number with a fraction or an exponent, as written. -/
  | number (literal : String)
  | bool (b : Bool)
  /-- A date, a time, or both, as written. -/
  | moment (literal : String)
  | array (items : List Toml)
  | table (members : List (String × Toml))
  deriving Repr, Inhabited

namespace Toml

/-- Where a table comes from. -/
inductive Origin where
  /-- A header of its own. -/
  | header
  /-- A longer header. -/
  | passing
  | dotted
  deriving DecidableEq, Repr

/-- What stands under a key while a document is read. -/
inductive Item where
  | value (value : Toml)
  | table (origin : Origin) (members : List (String × Item))
  /-- A table for each header in double brackets, latest first. -/
  | tables (tables : List (List (String × Item)))
  deriving Repr

abbrev Members := List (String × Item)

namespace Members

def get? : Members → String → Option Item
  | [], _ => none
  | (k, item) :: rest, key => if k = key then some item else get? rest key

def set : Members → String → Item → Members
  | [], key, item => [(key, item)]
  | (k, old) :: rest, key, item =>
    if k = key then (key, item) :: rest else (k, old) :: set rest key item

def insert (members : Members) (value : Toml) : List String → Option Members
  | [] => none
  | [key] =>
    match members.get? key with
    | none => some (members.set key (.value value))
    | some _ => none
  | key :: keys =>
    match members.get? key with
    | none => ((Members.insert [] value keys).map fun inner =>
        members.set key (.table .dotted inner))
    | some (.table .dotted inner) =>
      (Members.insert inner value keys).map fun inner => members.set key (.table .dotted inner)
    | some (.table .passing inner) =>
      if keys.length < 2 then none
      else
        (Members.insert inner value keys).map fun inner => members.set key (.table .passing inner)
    | some _ => none

/-- Changes the table that a header leads to. Of several tables under one key the latest is meant,
and tables on the way that are missing are created. -/
def descend (members : Members) (change : Members → Option Members) :
    List String → Option Members
  | [] => change members
  | key :: keys =>
    match members.get? key with
    | none =>
      (Members.descend [] change keys).map fun inner => members.set key (.table .passing inner)
    | some (.table origin inner) =>
      (Members.descend inner change keys).map fun inner =>
        members.set key (.table origin inner)
    | some (.tables (inner :: earlier)) =>
      (Members.descend inner change keys).map fun inner =>
        members.set key (.tables (inner :: earlier))
    | some _ => none

def openTable (key : String) (members : Members) : Option Members :=
  match members.get? key with
  | none => some (members.set key (.table .header []))
  | some (.table .passing inner) => some (members.set key (.table .header inner))
  | some _ => none

def openAnother (key : String) (members : Members) : Option Members :=
  match members.get? key with
  | none => some (members.set key (.tables [[]]))
  | some (.tables tables) => some (members.set key (.tables ([] :: tables)))
  | some _ => none

end Members

mutual

def Item.toToml : Item → Toml
  | .value value => value
  | .table _ members => .table (Members.toTomls members)
  | .tables tables => .array (Members.toTables tables).reverse

def Members.toTomls : List (String × Item) → List (String × Toml)
  | [] => []
  | (key, item) :: rest => (key, Item.toToml item) :: Members.toTomls rest

def Members.toTables : List (List (String × Item)) → List Toml
  | [] => []
  | members :: rest => .table (Members.toTomls members) :: Members.toTables rest

end

def member? (members : List (String × Toml)) (key : String) : Option Toml :=
  match members.find? (·.1 == key) with
  | some (_, value) => some value
  | none => none

end Toml

end Mustache
