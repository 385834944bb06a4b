/-!
# Mustache.Text.Search

Finding the first occurrence of a mark in a text, and taking the part of a text between two
offsets. Offsets count the bytes of the UTF-8 form, so a character counts for its
`Char.utf8Size`.

* `cut mark s`: the text before the first occurrence of `mark` and the text after it. Nothing is
  lost (`cut_eq`).
* `slice s start stop`: the part of `s` between two byte offsets; cutting at the two ends of a
  part gives that part back (`slice_append`).
* `split separator s`: the parts between the occurrences of a separator.
-/

namespace Mustache.Text

def byteLength : List Char → Nat
  | [] => 0
  | c :: cs => c.utf8Size + byteLength cs

theorem byteLength_append (s t : List Char) :
    byteLength (s ++ t) = byteLength s + byteLength t := by
  induction s with
  | nil => simp [byteLength]
  | cons c cs ih => simp [byteLength, ih, Nat.add_assoc]

/-! ## The first occurrence -/

def cut (mark : List Char) : List Char → Option (List Char × List Char)
  | [] => if mark.isEmpty then some ([], []) else none
  | c :: cs =>
    if mark.isPrefixOf (c :: cs) then some ([], (c :: cs).drop mark.length)
    else
      match cut mark cs with
      | none => none
      | some (before, after) => some (c :: before, after)

theorem cut_eq {mark s before after : List Char} (h : cut mark s = some (before, after)) :
    before ++ (mark ++ after) = s := by
  fun_induction cut mark s generalizing before after with
  | case1 hm =>
    cases h
    simpa using hm
  | case2 => cases h
  | case3 c cs hp =>
    cases h
    obtain ⟨t, ht⟩ := List.isPrefixOf_iff_prefix.1 hp
    rw [← ht]
    simp
  | case4 => cases h
  | case5 c cs hp b a hcut ih =>
    cases h
    simp [ih hcut]

def find (mark s : List Char) : Option Nat :=
  (cut mark s).map fun (before, _) => byteLength before

/-! ## Parts between byte offsets -/

def takeBytes : Nat → List Char → List Char
  | _, [] => []
  | n, c :: cs => if n = 0 then [] else c :: takeBytes (n - c.utf8Size) cs

def dropBytes : Nat → List Char → List Char
  | _, [] => []
  | n, c :: cs => if n = 0 then c :: cs else dropBytes (n - c.utf8Size) cs

def slice (s : List Char) (start stop : Nat) : List Char :=
  takeBytes (stop - start) (dropBytes start s)

theorem takeBytes_append (s t : List Char) : takeBytes (byteLength s) (s ++ t) = s := by
  induction s with
  | nil => cases t <;> simp [byteLength, takeBytes]
  | cons c cs ih =>
    have := Char.utf8Size_pos c
    simp only [List.cons_append, byteLength, takeBytes]
    rw [if_neg (by omega), Nat.add_sub_cancel_left, ih]

theorem dropBytes_append (s t : List Char) : dropBytes (byteLength s) (s ++ t) = t := by
  induction s with
  | nil => cases t <;> simp [byteLength, dropBytes]
  | cons c cs ih =>
    have := Char.utf8Size_pos c
    simp only [List.cons_append, byteLength, dropBytes]
    rw [if_neg (by omega), Nat.add_sub_cancel_left, ih]

theorem slice_append (p s t : List Char) :
    slice (p ++ (s ++ t)) (byteLength p) (byteLength p + byteLength s) = s := by
  rw [slice, dropBytes_append, Nat.add_sub_cancel_left, takeBytes_append]

/-! ## Separators -/

/-- There is one part more than there are separators. -/
def split (separator : Char) : List Char → List (List Char)
  | [] => [[]]
  | c :: cs =>
    if c = separator then [] :: split separator cs
    else
      match split separator cs with
      | [] => [[c]]
      | part :: parts => (c :: part) :: parts

end Mustache.Text
