import Mustache.Scanner

/-!
# Mustache.Tree

The tree of a template: literal text, tags, and sections that hold trees of their own.

`parse` scans a source and nests what it gives. The lines of tags that are alone on their line
are taken out of the neighbouring text on the way (`trimmed`), so the text of a tree is what the
template writes. The first tag that offends decides the error; a section that is left open is
reported only when no tag offends, the innermost one first.
-/

namespace Mustache

inductive Node where
  /-- Literal output; the lines of lone tags are no part of it. -/
  | text (text : String)
  | interpolation (path : String) (escaped : Bool) (span : Span)
  /-- `raw` is the source between the two tags, and `delimiters` the pair in force at the first. -/
  | block (path : String) (inverted : Bool) (children : List Node) (raw : String)
      (delimiters : Delimiters) (opening closing : Span)
  /-- `indent` stands before the tag when it is alone on its line, and is empty otherwise. -/
  | partialTag (name : String) (indent : String) (span : Span)
  | comment (text : String) (span : Span)
  deriving Repr

abbrev Tree := List Node

namespace Node

mutual

def count : Node → Nat
  | .block _ _ children _ _ _ _ => 1 + countAll children
  | _ => 1

def countAll : List Node → Nat
  | [] => 0
  | node :: nodes => count node + countAll nodes

end

/-- Induction on a list of nodes and, at a section, on the nodes inside it. -/
@[elab_as_elim]
theorem forestInduction {P : List Node → Prop} (nil : P [])
    (text : ∀ s nodes, P nodes → P (.text s :: nodes))
    (interpolation : ∀ path escaped span nodes, P nodes →
      P (.interpolation path escaped span :: nodes))
    (block : ∀ path inverted children raw delimiters opening closing nodes, P children →
      P nodes → P (.block path inverted children raw delimiters opening closing :: nodes))
    (partialTag : ∀ name indent span nodes, P nodes → P (.partialTag name indent span :: nodes))
    (comment : ∀ s span nodes, P nodes → P (.comment s span :: nodes)) (nodes : List Node) :
    P nodes :=
  Node.rec_1 (motive_1 := fun node => ∀ nodes, P nodes → P (node :: nodes)) (motive_2 := P)
    text interpolation
    (fun path inverted children raw delimiters opening closing hchildren nodes =>
      block path inverted children raw delimiters opening closing nodes hchildren)
    partialTag comment nil (fun _ nodes hnode hnodes => hnode nodes hnodes) nodes

end Node

/-! ## Nesting -/

/-- A section that is open. `earlier` holds the nodes before it, latest first. -/
structure OpenSection where
  path : String
  inverted : Bool
  opening : Span
  delimiters : Delimiters
  earlier : List Node
  deriving Repr

/-- What has been nested so far. `nodes` are those of the innermost open section, or of the
template, latest first; `strip` is what the line of the tag before claims of the next text. -/
structure Nesting where
  nodes : List Node
  outer : List OpenSection
  inForce : Delimiters
  strip : Nat

namespace Nesting

def initial (delimiters : Delimiters) : Nesting := ⟨[], [], delimiters, 0⟩

def push (n : Nesting) (node : Node) : Nesting := { n with nodes := node :: n.nodes }

/-- A literal text without what the lines of the tags before and after it claim. -/
def trimmed (literal : List Char) (strip : Nat) (standalone : Option Standalone) : List Char :=
  let text := literal.drop strip
  match standalone with
  | none => text
  | some lone => text.take (text.length - lone.indent.length)

def pushText (n : Nesting) (text : List Char) : Nesting :=
  if text.isEmpty then n else n.push (.text (String.ofList text))

def openSection (n : Nesting) (path : String) (inverted : Bool) (span : Span) : Nesting :=
  { n with nodes := [], outer := ⟨path, inverted, span, n.inForce, n.nodes⟩ :: n.outer }

def unmatched (name : String) (expected : Option String) (span : Span) : Error :=
  .unmatchedClose name expected span.start.line span.start.column

def closeSection (n : Nesting) (source : List Char) (name : String) (span : Span) :
    Except Error Nesting :=
  match n.outer with
  | [] => .error (unmatched name none span)
  | innermost :: outer =>
    if innermost.path = name then
      let raw := Text.slice source innermost.opening.stop.offset span.start.offset
      let node := Node.block name innermost.inverted n.nodes.reverse (String.ofList raw)
        innermost.delimiters innermost.opening span
      .ok { n with nodes := node :: innermost.earlier, outer := outer }
    else .error (unmatched name (some innermost.path) span)

def addTag (n : Nesting) (source : List Char) (tag : SpannedToken) : Except Error Nesting :=
  match tag.token with
  | .sectionOpen path => .ok (n.openSection path false tag.span)
  | .invertedOpen path => .ok (n.openSection path true tag.span)
  | .sectionClose name => n.closeSection source name tag.span
  | .partialTag name =>
    let indent := match tag.standalone with
      | some lone => lone.indent
      | none => ""
    .ok (n.push (.partialTag name indent tag.span))
  | .comment text => .ok (n.push (.comment text tag.span))
  | .interpolation path escaped => .ok (n.push (.interpolation path escaped tag.span))
  | .delimiterChange delimiters => .ok { n with inForce := delimiters }
  | .text text => .ok (n.push (.text text))

def add (n : Nesting) (source : List Char) (item : Scanned) : Except Error Nesting :=
  match item.tag with
  | none => .ok { n.pushText (trimmed item.literal n.strip none) with strip := 0 }
  | some tag =>
    let strip := match tag.trimmable with
      | some lone => lone.trailing
      | none => 0
    { n.pushText (trimmed item.literal n.strip tag.trimmable) with strip := strip }.addTag
      source tag

def addAll (n : Nesting) (source : List Char) : List Scanned → Except Error Nesting
  | [] => .ok n
  | item :: items =>
    match n.add source item with
    | .error error => .error error
    | .ok n' => n'.addAll source items

def close (n : Nesting) : Except Error Tree :=
  match n.outer with
  | [] => .ok n.nodes.reverse
  | innermost :: _ =>
    .error (.unterminatedSection innermost.path innermost.opening.start.line
      innermost.opening.start.column)

end Nesting

namespace Tree

def parse (source : List Char) (delimiters : Delimiters) : Except Error Tree :=
  match Scanner.ofSource source delimiters with
  | .error error => .error error
  | .ok scanner =>
    let (items, failure) := scanner.items
    match (Nesting.initial delimiters).addAll source items, failure with
    | .error error, _ => .error error
    | .ok _, some error => .error error
    | .ok nesting, none => nesting.close

end Tree

end Mustache
