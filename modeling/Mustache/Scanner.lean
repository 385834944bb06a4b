import Mustache.Text.Search
import Mustache.Token

/-!
# Mustache.Scanner

Splits the source of a template into literal text and tags. A tag is written

  opening mark, sigil, body, what closes it

where the sigil is one of `# ^ / ! > & { =` or absent, and decides what closes the tag: a brace
or a `=` before the closing mark when it opened with one, the closing mark alone otherwise. The
body runs to the first place where the tag is closed, and its blanks at either end do not count.
A change of delimiters is in force from its own end on.

A `Scanner` is stepped by `next`, which gives the literal text before a tag together with the
tag, and is rewound by `reset`. `Scanner.items` runs one to its end; each step leaves less to
scan (`next_shorter`), so it has one.
-/

namespace Mustache

/-! ## The parts of a tag -/

inductive Sigil where
  | plain
  | brace
  | equals
  | hash
  | caret
  | slash
  | bang
  | greater
  | ampersand
  deriving DecidableEq, Repr

namespace Sigil

def ofChar : Char → Sigil
  | '\x7b' => .brace
  | '=' => .equals
  | '#' => .hash
  | '^' => .caret
  | '/' => .slash
  | '!' => .bang
  | '>' => .greater
  | '&' => .ampersand
  | _ => .plain

def text : Sigil → List Char
  | .plain => []
  | .brace => ['\x7b']
  | .equals => ['=']
  | .hash => ['#']
  | .caret => ['^']
  | .slash => ['/']
  | .bang => ['!']
  | .greater => ['>']
  | .ampersand => ['&']

def leading : List Char → Sigil
  | [] => .plain
  | c :: _ => ofChar c

def closer (sigil : Sigil) (closing : List Char) : List Char :=
  match sigil with
  | .brace => '\x7d' :: closing
  | .equals => '=' :: closing
  | _ => closing

theorem text_append_drop (s : List Char) :
    (leading s).text ++ s.drop (leading s).text.length = s := by
  cases s with
  | nil => rfl
  | cons c cs =>
    simp only [leading, ofChar]
    split <;> rfl

end Sigil

/-- A name as a tag may carry it, without the blanks around it. -/
def readName (body : List Char) : Except TagFault String :=
  if body.isEmpty then .error .nameEmpty
  else if body.any Text.isBlank then .error .nameBlank
  else .ok (String.ofList body)

def readDelimiters (body : List Char) : Except TagFault UsableDelimiters :=
  match Text.words body with
  | [opening, closing] =>
    match Delimiters.check ⟨String.ofList opening, String.ofList closing⟩ with
    | .error fault => .error (.delimiters fault)
    | .ok delimiters => .ok delimiters
  | _ => .error .notTwoDelimiters

def readTag (inForce : UsableDelimiters) (sigil : Sigil) (body : List Char) :
    Except TagFault (Token × UsableDelimiters) :=
  match sigil with
  | .bang => .ok (.comment (String.ofList body), inForce)
  | .equals =>
    match readDelimiters body with
    | .error fault => .error fault
    | .ok delimiters => .ok (.delimiterChange delimiters, delimiters)
  | _ =>
    match readName body with
    | .error fault => .error fault
    | .ok name =>
      match sigil with
      | .hash => .ok (.sectionOpen name, inForce)
      | .caret => .ok (.invertedOpen name, inForce)
      | .slash => .ok (.sectionClose name, inForce)
      | .greater => .ok (.partialTag name, inForce)
      | .brace | .ampersand => .ok (.interpolation name false, inForce)
      | _ => .ok (.interpolation name true, inForce)

/-! ## Tags that are alone on their line -/

def isIndent (c : Char) : Bool := c == ' ' || c == '\t'

def isTrailing (c : Char) : Bool := c == ' ' || c == '\t' || c == '\r'

/-- The whitespace around a tag when nothing else is on its first and last line. `before` is the
source before the tag, nearest character first, and `after` the source that follows it. -/
def standaloneAt (before after : List Char) : Option Standalone :=
  let indent := String.ofList (before.takeWhile isIndent).reverse
  let trailing := (after.takeWhile isTrailing).length
  match before.dropWhile isIndent, after.dropWhile isTrailing with
  | [], [] => some ⟨indent, trailing⟩
  | [], '\n' :: _ => some ⟨indent, trailing + 1⟩
  | '\n' :: _, [] => some ⟨indent, trailing⟩
  | '\n' :: _, '\n' :: _ => some ⟨indent, trailing + 1⟩
  | _, _ => none

/-! ## The scanner -/

/-- The literal text before a tag, and the tag; the text after the last tag has none. -/
structure Scanned where
  literal : List Char
  span : Span
  tag : Option SpannedToken
  deriving DecidableEq, Repr

structure Scanner where
  source : List Char
  /-- The pair to go back to on `reset`. -/
  initial : UsableDelimiters
  inForce : UsableDelimiters
  /-- What has been scanned, nearest character first. -/
  before : List Char
  rest : List Char
  point : Point
  finished : Bool

namespace Scanner

def ofUsable (source : List Char) (delimiters : UsableDelimiters) : Scanner :=
  ⟨source, delimiters, delimiters, [], source, .start, false⟩

def malformed (tag : List Char) (fault : TagFault) (point : Point) : Error :=
  .malformedTag (String.ofList tag) fault point.line point.column

/-- A scanner at the start of `source`; a pair that cannot be used is itself the malformed tag. -/
def ofSource (source : List Char) (delimiters : Delimiters) : Except Error Scanner :=
  match delimiters.check with
  | .error fault => .error (malformed delimiters.text.toList (.delimiters fault) .start)
  | .ok usable => .ok (ofUsable source usable)

def reset (s : Scanner) : Scanner := ofUsable s.source s.initial

def advance (s : Scanner) (text rest : List Char) : Scanner :=
  { s with before := text.reverse ++ s.before, rest := rest, point := s.point.advance text }

def finish (s : Scanner) : Scanner := { s with finished := true }

/-- The tag at which the scanner stands, `after` being the source behind its opening mark. -/
def tagAt (s : Scanner) (after : List Char) : Except Error (SpannedToken × Scanner) :=
  let sigil := Sigil.leading after
  let start := s.inForce.val.opening.toList ++ sigil.text
  let closer := sigil.closer s.inForce.val.closing.toList
  match Text.cut closer (after.drop sigil.text.length) with
  | none => .error (malformed start (.unclosed (String.ofList closer)) s.point)
  | some (body, rest) =>
    let tag := start ++ (body ++ closer)
    match readTag s.inForce sigil (Text.trim body) with
    | .error fault => .error (malformed tag fault s.point)
    | .ok (token, inForce) =>
      .ok (⟨token, Span.covering s.point tag, standaloneAt s.before rest⟩,
        { s.advance tag rest with inForce := inForce })

def next (s : Scanner) : Option (Except Error Scanned) × Scanner :=
  if s.finished then (none, s)
  else
    match Text.cut s.inForce.val.opening.toList s.rest with
    | none =>
      if s.rest.isEmpty then (none, s.finish)
      else
        (some (.ok ⟨s.rest, Span.covering s.point s.rest, none⟩), (s.advance s.rest []).finish)
    | some (literal, after) =>
      let s' := s.advance literal (s.inForce.val.opening.toList ++ after)
      match s'.tagAt after with
      | .error error => (some (.error error), s'.finish)
      | .ok (tag, s'') => (some (.ok ⟨literal, Span.covering s.point literal, some tag⟩), s'')

theorem tagAt_shorter {s s' : Scanner} {after : List Char} {tag : SpannedToken}
    (h : s.tagAt after = .ok (tag, s')) : s'.rest.length ≤ after.length := by
  simp only [tagAt] at h
  split at h
  · cases h
  · rename_i body rest hcut
    split at h
    · cases h
    · cases h
      have hlen := congrArg List.length (Text.cut_eq hcut)
      simp only [List.length_append, List.length_drop] at hlen
      simp only [advance]
      omega

theorem next_shorter {s s' : Scanner} {item : Scanned} (h : s.next = (some (.ok item), s')) :
    s'.rest.length < s.rest.length := by
  unfold next at h
  split at h
  · cases h
  · split at h
    · split at h
      · cases h
      · rename_i hrest
        cases h
        have : s.rest ≠ [] := by simpa using hrest
        simpa [finish, advance] using List.length_pos_iff.2 this
    · rename_i literal after hcut
      simp only at h
      split at h
      · cases h
      · rename_i tag s'' htag
        cases h
        have hle := tagAt_shorter htag
        have hlen := congrArg List.length (Text.cut_eq hcut)
        have hpos := List.length_pos_iff.2 s.inForce.property.opening_ne_nil
        simp only [List.length_append] at hlen
        omega

/-- What a scanner gives until it ends, and the error it ends with, if it does. -/
def items (s : Scanner) : List Scanned × Option Error :=
  match _h : s.next with
  | (none, _) => ([], none)
  | (some (.error error), _) => ([], some error)
  | (some (.ok item), s') =>
    let (more, failure) := items s'
    (item :: more, failure)
termination_by s.rest.length
decreasing_by exact next_shorter _h

end Scanner

end Mustache
