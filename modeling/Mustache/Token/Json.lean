import Mustache.Json
import Mustache.Token

/-!
# Mustache.Token.Json

Points, spans, delimiters and tokens as values of the data format, and reading them back. A token
is written as its kind, under `type`, and what it carries, under `value`.
-/

namespace Mustache

namespace Point

def toJson (p : Point) : Json :=
  .object [("line", .integer p.line), ("column", .integer p.column),
    ("offset", .integer p.offset)]

def ofJson? (j : Json) : Option Point :=
  match j.fields? ["line", "column", "offset"] with
  | some [some line, some column, some offset] =>
    match line.nat?, column.nat?, offset.nat? with
    | some line, some column, some offset => some ⟨line, column, offset⟩
    | _, _, _ => none
  | _ => none

end Point

namespace Span

def toJson (s : Span) : Json :=
  .object [("start", s.start.toJson), ("end", s.stop.toJson)]

def ofJson? (j : Json) : Option Span :=
  match j.fields? ["start", "end"] with
  | some [some start, some stop] =>
    match Point.ofJson? start, Point.ofJson? stop with
    | some start, some stop => some ⟨start, stop⟩
    | _, _ => none
  | _ => none

end Span

namespace Delimiters

def toJson (d : Delimiters) : Json :=
  .object [("open", .string d.opening), ("close", .string d.closing)]

def ofJson? (j : Json) : Option Delimiters :=
  match j.fields? ["open", "close"] with
  | some [some opening, some closing] =>
    match opening.string?, closing.string? with
    | some opening, some closing => some ⟨opening, closing⟩
    | _, _ => none
  | _ => none

end Delimiters

namespace Token

def kind : Token → String
  | .text _ => "text"
  | .interpolation .. => "variable"
  | .sectionOpen _ => "section_open"
  | .invertedOpen _ => "inverted_section_open"
  | .sectionClose _ => "section_close"
  | .partialTag _ => "partial"
  | .comment _ => "comment"
  | .delimiterChange _ => "delimiter_change"

def content : Token → Json
  | .text s => .string s
  | .interpolation path escaped =>
    .object [("path", .string path), ("escaped", .bool escaped)]
  | .sectionOpen path => .string path
  | .invertedOpen path => .string path
  | .sectionClose path => .string path
  | .partialTag name => .string name
  | .comment s => .string s
  | .delimiterChange delimiters => delimiters.toJson

def toJson (t : Token) : Json :=
  .object [("type", .string t.kind), ("value", t.content)]

def interpolationOfJson? (j : Json) : Option Token :=
  match j.fields? ["path", "escaped"] with
  | some [some path, some escaped] =>
    match path.string?, escaped.bool? with
    | some path, some escaped => some (.interpolation path escaped)
    | _, _ => none
  | _ => none

def ofKind? (kind : String) (content : Json) : Option Token :=
  match kind with
  | "text" => content.string?.map .text
  | "variable" => interpolationOfJson? content
  | "section_open" => content.string?.map .sectionOpen
  | "inverted_section_open" => content.string?.map .invertedOpen
  | "section_close" => content.string?.map .sectionClose
  | "partial" => content.string?.map .partialTag
  | "comment" => content.string?.map .comment
  | "delimiter_change" => (Delimiters.ofJson? content).map .delimiterChange
  | _ => none

def ofJson? (j : Json) : Option Token :=
  match j.fields? ["type", "value"] with
  | some [some (.string kind), some content] => ofKind? kind content
  | _ => none

end Token

namespace Standalone

def toJson (s : Standalone) : Json :=
  .object [("indent", .string s.indent), ("trailing", .integer s.trailing)]

end Standalone

namespace SpannedToken

def toJson (t : SpannedToken) : Json :=
  .object ([("token", t.token.toJson), ("position", t.span.toJson)]
    ++ t.standalone.toList.map fun lone => ("standalone", lone.toJson))

end SpannedToken

end Mustache
