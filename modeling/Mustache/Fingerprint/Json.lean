import Mustache.Fingerprint
import Mustache.Token.Json

/-!
# Mustache.Fingerprint.Json

Versions, options and fingerprints as values of the data format, and reading them back. An option
that is not given is off.
-/

namespace Mustache

namespace SourceVersion

def toJson : SourceVersion → Json
  | .text hash length =>
    .object [("kind", .string "text"), ("hash", .integer hash.toNat),
      ("len", .integer length.toNat)]
  | .file path modified size =>
    .object [("kind", .string "file"), ("path", .string path.text),
      ("modified_unix_ms", .integer modified.toNat), ("size", .integer size.toNat)]

def ofJson? (j : Json) : Option SourceVersion :=
  match j.whole?.bind (Json.variant? "kind") with
  | some ("text", j) =>
    match j.fields? ["hash", "len"] with
    | some [some hash, some length] =>
      match hash.word?, length.word? with
      | some hash, some length => some (.text hash length)
      | _, _ => none
    | _ => none
  | some ("file", j) =>
    match j.fields? ["path", "modified_unix_ms", "size"] with
    | some [some (.string path), some modified, some size] =>
      match modified.word?, size.word? with
      | some modified, some size => some (.file ⟨path⟩ modified size)
      | _, _ => none
    | _ => none
  | _ => none

end SourceVersion

namespace CompilerOptions

def toJson (o : CompilerOptions) : Json :=
  .object [("disable_lambdas", .bool o.disableLambdas),
    ("disable_indentation", .bool o.disableIndentation),
    ("include_partial_code", .bool o.includePartialCode), ("beautify", .bool o.beautify)]

def flag? : Option Json → Option Bool
  | none => some false
  | some j => j.bool?

def ofJson? (j : Json) : Option CompilerOptions :=
  match j.fields? ["disable_lambdas", "disable_indentation", "include_partial_code",
      "beautify"] with
  | some [lambdas, indentation, code, beautify] =>
    match flag? lambdas, flag? indentation, flag? code, flag? beautify with
    | some lambdas, some indentation, some code, some beautify =>
      some ⟨lambdas, indentation, code, beautify⟩
    | _, _, _, _ => none
  | _ => none

end CompilerOptions

namespace Fingerprint

def toJson (f : Fingerprint) : Json :=
  .object [("source", f.source.toJson), ("delimiters", f.delimiters.toJson),
    ("options", f.options.toJson)]

def ofJson? (j : Json) : Option Fingerprint :=
  match j.fields? ["source", "delimiters", "options"] with
  | some [some source, some delimiters, some options] =>
    match SourceVersion.ofJson? source, Delimiters.ofJson? delimiters,
        CompilerOptions.ofJson? options with
    | some source, some delimiters, some options => some ⟨source, delimiters, options⟩
    | _, _, _ => none
  | _ => none

end Fingerprint

end Mustache
