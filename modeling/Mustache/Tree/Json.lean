import Mustache.Token.Json
import Mustache.Tree

/-!
# Mustache.Tree.Json

Trees as values of the data format, and reading them back. A node is an object with its kind
under `type` and its parts beside it.
-/

namespace Mustache

namespace Node

mutual

def toJson : Node → Json
  | .text s => .object [("type", .string "text"), ("text", .string s)]
  | .interpolation path escaped span =>
    .object [("type", .string "variable"), ("path", .string path), ("escaped", .bool escaped),
      ("position", span.toJson)]
  | .block path inverted children raw delimiters opening closing =>
    .object [("type", .string "section"), ("path", .string path), ("inverted", .bool inverted),
      ("children", .array (toJsons children)), ("raw", .string raw),
      ("delimiters", delimiters.toJson), ("opening", opening.toJson),
      ("closing", closing.toJson)]
  | .partialTag name indent span =>
    .object [("type", .string "partial"), ("name", .string name), ("indent", .string indent),
      ("position", span.toJson)]
  | .comment s span =>
    .object [("type", .string "comment"), ("text", .string s), ("position", span.toJson)]

def toJsons : List Node → List Json
  | [] => []
  | node :: nodes => toJson node :: toJsons nodes

end

/-- A node of the given kind. `children` are those of a section, where they could be read. -/
def ofKind? (kind : String) (j : Json) (children : Option (List Node)) : Option Node :=
  match kind with
  | "text" =>
    match j.fields? ["text"] with
    | some [some (.string s)] => some (.text s)
    | _ => none
  | "variable" =>
    match j.fields? ["path", "escaped", "position"] with
    | some [some (.string path), some (.bool escaped), some span] =>
      (Span.ofJson? span).map (.interpolation path escaped)
    | _ => none
  | "section" =>
    match j.fields? ["path", "inverted", "children", "raw", "delimiters", "opening",
        "closing"] with
    | some [some (.string path), some (.bool inverted), some _, some (.string raw),
        some delimiters, some opening, some closing] =>
      match children, Delimiters.ofJson? delimiters, Span.ofJson? opening,
          Span.ofJson? closing with
      | some children, some delimiters, some opening, some closing =>
        some (.block path inverted children raw delimiters opening closing)
      | _, _, _, _ => none
    | _ => none
  | "partial" =>
    match j.fields? ["name", "indent", "position"] with
    | some [some (.string name), some (.string indent), some span] =>
      (Span.ofJson? span).map (.partialTag name indent)
    | _ => none
  | "comment" =>
    match j.fields? ["text", "position"] with
    | some [some (.string s), some span] => (Span.ofJson? span).map (.comment s)
    | _ => none
  | _ => none

mutual

def ofJson? : Json → Option Node
  | .object members =>
    match Json.variant? "type" (.object members) with
    | some (kind, j) => ofKind? kind j (childrenOf? members)
    | none => none
  | .array items =>
    match Json.variant? "type" (.array items) with
    | some (kind, j) => ofKind? kind j (childrenAt? 3 items)
    | none => none
  | _ => none

def ofJsons? : List Json → Option (List Node)
  | [] => some []
  | j :: js =>
    match ofJson? j, ofJsons? js with
    | some node, some nodes => some (node :: nodes)
    | _, _ => none

def childrenOf? : List (String × Json) → Option (List Node)
  | [] => none
  | (name, j) :: members =>
    if name = "children" then
      match j with
      | .array items => ofJsons? items
      | _ => none
    else childrenOf? members

def childrenAt? (position : Nat) : List Json → Option (List Node)
  | [] => none
  | j :: js =>
    if position = 0 then
      match j with
      | .array items => ofJsons? items
      | _ => none
    else childrenAt? (position - 1) js

end

end Node

namespace Tree

def toJson (tree : Tree) : Json := .array (Node.toJsons tree)

def ofJson? : Json → Option Tree
  | .array items => Node.ofJsons? items
  | _ => none

end Tree

end Mustache
