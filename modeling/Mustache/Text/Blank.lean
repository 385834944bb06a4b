/-!
# Mustache.Text.Blank

The Unicode property `White_Space`, and the two operations on text that depend on it: `trim`,
which names are read with, and `words`, which a change of delimiters is read with. `words`
gives the maximal runs of characters that are not blank.
-/

namespace Mustache.Text

def isBlank (c : Char) : Bool :=
  let n := c.toNat
  (0x9 ≤ n && n ≤ 0xD) || n == 0x20 || n == 0x85 || n == 0xA0 || n == 0x1680
    || (0x2000 ≤ n && n ≤ 0x200A) || n == 0x2028 || n == 0x2029 || n == 0x202F || n == 0x205F
    || n == 0x3000

def trimEnd (s : List Char) : List Char :=
  (s.reverse.dropWhile isBlank).reverse

def trim (s : List Char) : List Char :=
  trimEnd (s.dropWhile isBlank)

/-- Whether a word that goes on with `s` ends before it. -/
def wordEnds : List Char → Bool
  | [] => true
  | c :: _ => isBlank c

def words : List Char → List (List Char)
  | [] => []
  | c :: cs =>
    if isBlank c then words cs
    else if wordEnds cs then [c] :: words cs
    else
      match words cs with
      | [] => [[c]]
      | w :: ws => (c :: w) :: ws

end Mustache.Text
