/-!
# Mustache.Text.Html

The five characters that are significant in HTML, written as entities.
-/

namespace Mustache.Text

def entity : Char → List Char
  | '&' => "&amp;".toList
  | '<' => "&lt;".toList
  | '>' => "&gt;".toList
  | '"' => "&quot;".toList
  | '\'' => "&#39;".toList
  | c => [c]

def escapeHtml (s : List Char) : List Char :=
  s.flatMap entity

end Mustache.Text
