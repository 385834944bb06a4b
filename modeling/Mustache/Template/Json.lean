import Mustache.Fingerprint.Json
import Mustache.Template

/-!
# Mustache.Template.Json

Compiled templates as values of the data format, and reading them back. An instruction is an
object with its kind under `op` and its parts beside it. A template without dependencies is
written without that field.
-/

namespace Mustache

namespace KeyPath

def toJson (p : KeyPath) : Json :=
  .object [("raw", .string p.raw), ("segments", .array (p.segments.map .string))]

def ofJson? (j : Json) : Option KeyPath :=
  match j.fields? ["raw", "segments"] with
  | some [some (.string raw), some (.array segments)] =>
    (segments.mapM Json.string?).map fun segments => ⟨raw, segments⟩
  | _ => none

end KeyPath

namespace Op

mutual

def toJson : Op → Json
  | .text s => .object [("op", .string "text"), ("text", .string s)]
  | .interpolation path escaped =>
    .object [("op", .string "variable"), ("path", path.toJson), ("escaped", .bool escaped)]
  | .block path body raw delimiters =>
    .object [("op", .string "section"), ("path", path.toJson), ("body", .array (toJsons body)),
      ("raw", .string raw), ("delimiters", delimiters.toJson)]
  | .inverted path body =>
    .object [("op", .string "inverted"), ("path", path.toJson),
      ("body", .array (toJsons body))]
  | .partialRef name indent =>
    .object [("op", .string "partial"), ("name", .string name), ("indent", .string indent)]
  | .inlined name indent body =>
    .object [("op", .string "inline"), ("name", .string name), ("indent", .string indent),
      ("body", .array (toJsons body))]

def toJsons : List Op → List Json
  | [] => []
  | op :: ops => toJson op :: toJsons ops

end

/-- An instruction of the given kind. `body` holds the instructions in it, where they could be
read. -/
def ofKind? (kind : String) (j : Json) (body : Option (List Op)) : Option Op :=
  match kind with
  | "text" =>
    match j.fields? ["text"] with
    | some [some (.string s)] => some (.text s)
    | _ => none
  | "variable" =>
    match j.fields? ["path", "escaped"] with
    | some [some path, some (.bool escaped)] =>
      (KeyPath.ofJson? path).map fun path => .interpolation path escaped
    | _ => none
  | "section" =>
    match j.fields? ["path", "body", "raw", "delimiters"] with
    | some [some path, some _, some (.string raw), some delimiters] =>
      match KeyPath.ofJson? path, body, Delimiters.ofJson? delimiters with
      | some path, some body, some delimiters => some (.block path body raw delimiters)
      | _, _, _ => none
    | _ => none
  | "inverted" =>
    match j.fields? ["path", "body"] with
    | some [some path, some _] =>
      match KeyPath.ofJson? path, body with
      | some path, some body => some (.inverted path body)
      | _, _ => none
    | _ => none
  | "partial" =>
    match j.fields? ["name", "indent"] with
    | some [some (.string name), some (.string indent)] => some (.partialRef name indent)
    | _ => none
  | "inline" =>
    match j.fields? ["name", "indent", "body"] with
    | some [some (.string name), some (.string indent), some _] =>
      body.map (.inlined name indent)
    | _ => none
  | _ => none

/-- Where the body stands among the parts of an instruction that are written without names. -/
def bodyPosition (kind : String) : Nat :=
  if kind = "inline" then 3 else 2

mutual

def ofJson? : Json → Option Op
  | .object members =>
    match Json.variant? "op" (.object members) with
    | some (kind, j) => ofKind? kind j (bodyOf? members)
    | none => none
  | .array items =>
    match Json.variant? "op" (.array items) with
    | some (kind, j) => ofKind? kind j (bodyAt? (bodyPosition kind) items)
    | none => none
  | _ => none

def ofJsons? : List Json → Option (List Op)
  | [] => some []
  | j :: js =>
    match ofJson? j, ofJsons? js with
    | some op, some ops => some (op :: ops)
    | _, _ => none

def bodyOf? : List (String × Json) → Option (List Op)
  | [] => none
  | (name, j) :: members =>
    if name = "body" then
      match j with
      | .array items => ofJsons? items
      | _ => none
    else bodyOf? members

def bodyAt? (position : Nat) : List Json → Option (List Op)
  | [] => none
  | j :: js =>
    if position = 0 then
      match j with
      | .array items => ofJsons? items
      | _ => none
    else bodyAt? (position - 1) js

end

end Op

namespace Dependency

def toJson (d : Dependency) : Json :=
  .object [("name", .string d.name),
    ("source", match d.source with
      | some version => version.toJson
      | none => .null)]

def version? : Json → Option (Option SourceVersion)
  | .null => some none
  | j => (SourceVersion.ofJson? j).map some

/-- A source that is not given among named fields is that of a partial that did not exist. -/
def ofJson? (j : Json) : Option Dependency :=
  match j.fields? ["name", "source"], j with
  | some [some (.string name), some source], _ => (version? source).map fun v => ⟨name, v⟩
  | some [some (.string name), none], .object _ => some ⟨name, none⟩
  | _, _ => none

end Dependency

namespace Template

def toJson (t : Template) : Json :=
  .object ([("options", t.options.toJson), ("ops", .array (Op.toJsons t.ops))]
    ++ if t.dependencies.isEmpty then []
      else [("dependencies", .array (t.dependencies.map Dependency.toJson))])

def ops? (j : Json) : Option (List Op) :=
  match j.whole? with
  | some (.array ops) => Op.ofJsons? ops
  | _ => none

def dependencies? : Option Json → Option (List Dependency)
  | none => some []
  | some (.array items) => items.mapM Dependency.ofJson?
  | some _ => none

def ofJson? (j : Json) : Option Template :=
  match j.fields? ["options", "ops", "dependencies"] with
  | some [some options, some ops, dependencies] =>
    match CompilerOptions.ofJson? options, ops? ops, dependencies? dependencies with
    | some options, some ops, some dependencies => some ⟨options, ops, dependencies⟩
    | _, _, _ => none
  | _ => none

/-- The text of a compiled template, on many lines where the options ask for it. -/
def text (t : Template) : String :=
  String.ofList (if t.options.beautify then t.toJson.pretty 0 else t.toJson.compact)

end Template

end Mustache
