/-!
# Mustache.Text.Indentation

Indenting every line of a text. A line feed at the end of a text begins no further line, so the
empty text stays empty.
-/

namespace Mustache.Text

/-- Writes `indent` at each place where a line begins; `fresh` says whether one begins here. -/
def indentFrom (indent : List Char) (fresh : Bool) : List Char → List Char
  | [] => []
  | c :: cs => (if fresh then indent else []) ++ c :: indentFrom indent (c == '\n') cs

def indentLines (indent text : List Char) : List Char :=
  indentFrom indent true text

theorem indentLines_nil (text : List Char) : indentLines [] text = text := by
  suffices h : ∀ fresh, indentFrom [] fresh text = text from h true
  induction text with
  | nil => intro _; rfl
  | cons c cs ih => intro fresh; cases fresh <;> simp [indentFrom, ih]

end Mustache.Text
