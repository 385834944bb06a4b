import Mustache.Error
import Mustache.Span

/-!
# Mustache.Token

The lexical units of a template and their written form under the standard delimiters.
-/

namespace Mustache

inductive Token where
  | text (text : String)
  | interpolation (path : String) (escaped : Bool)
  | sectionOpen (path : String)
  | invertedOpen (path : String)
  | sectionClose (path : String)
  | partialTag (name : String)
  | comment (text : String)
  | delimiterChange (delimiters : Delimiters)
  deriving DecidableEq, Repr

namespace Token

/-- A line that holds nothing but such a tag leaves no line in the output. -/
def allowsStandalone : Token → Bool
  | .text _ | .interpolation .. => false
  | _ => true

def sigil : Token → Option Char
  | .text _ => none
  | .interpolation _ true => none
  | .interpolation _ false => some '&'
  | .sectionOpen _ => some '#'
  | .invertedOpen _ => some '^'
  | .sectionClose _ => some '/'
  | .partialTag _ => some '>'
  | .comment _ => some '!'
  | .delimiterChange _ => some '='

def body : Token → String
  | .text s => s
  | .interpolation path _ => path
  | .sectionOpen path | .invertedOpen path | .sectionClose path => path
  | .partialTag name => name
  | .comment s => s
  | .delimiterChange delimiters => delimiters.text ++ "="

def written (token : Token) : String :=
  match token with
  | .text s => s
  | _ =>
    Delimiters.standard.opening ++ String.ofList token.sigil.toList ++ token.body
      ++ Delimiters.standard.closing

end Token

/-- The whitespace around a tag that is alone on its line. `indent` stands before it; `trailing`
is the length in bytes of what follows it, the line feed included. -/
structure Standalone where
  indent : String
  trailing : Nat
  deriving DecidableEq, Repr

structure SpannedToken where
  token : Token
  span : Span
  standalone : Option Standalone := none
  deriving DecidableEq, Repr

/-- The whitespace that goes with the tag when its line is removed. -/
def SpannedToken.trimmable (t : SpannedToken) : Option Standalone :=
  if t.token.allowsStandalone then t.standalone else none

end Mustache
