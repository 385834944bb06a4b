import Mustache.Template
import Mustache.Tree

/-!
# Mustache.Template.Compile

Compiling a tree to instructions. Comments leave nothing, and texts that meet become one
instruction.

A partial is compiled into the template when the options ask for it. Inside its own body, and
inside `maxPartialDepth` partials, a partial stays a reference, so that compiling ends whatever
the partials include.
-/

namespace Mustache

def maxPartialDepth : Nat := 128

/-- Two lists of instructions, one after the other; texts that meet become one. -/
def Op.append : List Op → List Op → List Op
  | [], more => more
  | [.text a], .text b :: more => .text (a ++ b) :: more
  | op :: ops, more => op :: Op.append ops more

/-- Instructions, and the partials recorded up to them. -/
abbrev Lowered := List Op × List Dependency

/-- What becomes of a partial tag with this name and indentation. -/
abbrev Lowering := String → String → List Dependency → Except Error Lowered

namespace Node

mutual

def lower (onPartial : Lowering) : Node → List Dependency → Except Error Lowered
  | .text s, known => .ok ([.text s], known)
  | .comment _ _, known => .ok ([], known)
  | .interpolation path escaped _, known =>
    .ok ([.interpolation (.ofString path) escaped], known)
  | .block path inverted children raw delimiters _ _, known =>
    match lowerAll onPartial children known with
    | .error error => .error error
    | .ok (body, known') =>
      if inverted then .ok ([.inverted (.ofString path) body], known')
      else .ok ([.block (.ofString path) body raw delimiters], known')
  | .partialTag name indent _, known => onPartial name indent known

def lowerAll (onPartial : Lowering) : List Node → List Dependency → Except Error Lowered
  | [], known => .ok ([], known)
  | node :: nodes, known =>
    match lower onPartial node known with
    | .error error => .error error
    | .ok (ops, known') =>
      match lowerAll onPartial nodes known' with
      | .error error => .error error
      | .ok (more, known'') => .ok (Op.append ops more, known'')

end

end Node

def lowerReference : Lowering := fun name indent known => .ok ([.partialRef name indent], known)

/-- Each partial is recorded once, when it is first met. -/
def recordVersion (partials : PartialSources) (name : String) (known : List Dependency) :
    Except Error (List Dependency) :=
  if known.any (·.name == name) then .ok known
  else
    match partials.version name with
    | .error error => .error error
    | .ok version => .ok (known ++ [⟨name, version⟩])

/-- A partial tag that becomes the body of the partial. `enclosing` are the partials around it,
and `left` says how many more may be opened. -/
def lowerInlined (partials : PartialSources) (delimiters : Delimiters) :
    (left : Nat) → (enclosing : List String) → Lowering
  | 0, _ => lowerReference
  | left + 1, enclosing => fun name indent known =>
    if enclosing.contains name then lowerReference name indent known
    else
      match recordVersion partials name known with
      | .error error => .error error
      | .ok known' =>
        match partials.source name with
        | .error error => .error error
        | .ok none => .ok ([], known')
        | .ok (some source) =>
          match Tree.parse source.toList delimiters with
          | .error error => .error error
          | .ok tree =>
            match Node.lowerAll (lowerInlined partials delimiters left (name :: enclosing))
                tree known' with
            | .error error => .error error
            | .ok (body, known'') => .ok ([.inlined name indent body], known'')

namespace Tree

/-- The instructions for a tree. Partials that are compiled into it start with `delimiters`. -/
def compile (tree : Tree) (delimiters : Delimiters) (options : CompilerOptions)
    (partials : PartialSources) : Except Error Template :=
  let onPartial :=
    if options.includePartialCode then lowerInlined partials delimiters maxPartialDepth []
    else lowerReference
  match Node.lowerAll onPartial tree [] with
  | .error error => .error error
  | .ok (ops, dependencies) => .ok ⟨options, ops, dependencies⟩

end Tree

namespace Template

def ofSource (source : String) (delimiters : Delimiters) (options : CompilerOptions)
    (partials : PartialSources) : Except Error Template :=
  match Tree.parse source.toList delimiters with
  | .error error => .error error
  | .ok tree => tree.compile delimiters options partials

end Template

end Mustache
