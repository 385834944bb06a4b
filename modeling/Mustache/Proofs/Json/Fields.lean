import Mustache.Proofs.Json.RoundTrip
import Mustache.Token.Json

/-!
# Mustache.Proofs.Json.Fields

What values of the data format are put together from when something is written in it: words, members
of objects and delimiters. Each is read back as it was written. Where a value nests too deeply, its
fields are cut off one by one (`fields?_within`), and a field that is read in full is lost.
-/

namespace Mustache

open Json

/-! ## Words -/

theorem nat?_ofNat {n : Nat} (h : n < UInt64.size) : (Json.integer n).nat? = some n := by
  show (if n < UInt64.size then some n else none) = some n
  exact if_pos h

theorem isWordy_ofNat {n : Nat} (h : n < UInt64.size) : (Json.integer n).isWordy = true := by
  simp only [isWordy, decide_eq_true_eq]
  omega

theorem word?_ofNat_toNat (w : UInt64) : (Json.integer w.toNat).word? = some w := by
  rw [word?, nat?_ofNat w.toNat_lt_size, Option.map_some, UInt64.ofNat_toNat]

theorem isWordy_toNat (w : UInt64) : (Json.integer w.toNat).isWordy = true :=
  isWordy_ofNat w.toNat_lt_size

theorem isWordy_object (members : List (String × Json)) :
    (Json.object members).isWordy = isWordyMembers members := by rw [isWordy]

theorem isWordy_array (items : List Json) : (Json.array items).isWordy = isWordyItems items := by
  rw [isWordy]

theorem isWordy_string (s : String) : (Json.string s).isWordy = true := rfl

theorem isWordy_bool (b : Bool) : (Json.bool b).isWordy = true := rfl

/-! ## Fields -/

theorem valuesOf_cons (name : String) (value : Json) (members : List (String × Json))
    (key : String) :
    valuesOf ((name, value) :: members) key =
      if name = key then value :: valuesOf members key else valuesOf members key := by
  simp only [valuesOf, List.filterMap_cons]
  split <;> simp_all

theorem valuesOf_nil (key : String) : valuesOf [] key = [] := rfl

theorem valuesOf_within (room : Nat) (members : List (String × Json)) (key : String) :
    valuesOf (withinMembers room members) key = (valuesOf members key).map (within room) := by
  induction members with
  | nil => rfl
  | cons member members ih =>
    obtain ⟨name, value⟩ := member
    rw [withinMembers, valuesOf_cons, valuesOf_cons, ih]
    split <;> rfl

theorem withinItems_eq_map (room : Nat) (items : List Json) :
    withinItems room items = items.map (within room) := by
  induction items with
  | nil => rfl
  | cons item items ih => rw [withinItems, ih, List.map_cons]

theorem fields?_within (j : Json) (room : Nat) (names : List String) :
    (j.within (room + 1)).fields? names =
      (j.fields? names).map fun fields => fields.map (Option.map (within room)) := by
  cases j with
  | object members =>
    rw [within, fields?, fields?]
    induction names with
    | nil => rfl
    | cons name names ih =>
      rw [List.mapM_cons, List.mapM_cons, ih, valuesOf_within]
      rcases valuesOf members name with _ | ⟨value, _ | ⟨_, _⟩⟩ <;>
        simp [Option.bind_map, Option.map_bind, Function.comp_def]
  | array items =>
    rw [within, fields?, fields?, withinItems_eq_map, List.length_map]
    split <;> simp
  | _ => rfl

namespace Delimiters

theorem ofJson?_toJson (d : Delimiters) : ofJson? d.toJson = some d := by
  simp [toJson, ofJson?, fields?, valuesOf_cons, valuesOf_nil, string?]

theorem isWordy_toJson (d : Delimiters) : d.toJson.isWordy = true := rfl

end Delimiters

/-! ## Values that are read in full -/

theorem whole?_of_isReadable {j : Json} (h : j.isReadable = true) : j.whole? = some j := if_pos h

theorem whole?_within (j : Json) {room : Nat} (h : room < j.depth) :
    (j.within room).whole? = none :=
  if_neg (by simp [not_isReadable_within h])

end Mustache
