import Mustache.Text.Search

/-!
# Mustache.Path

Paths as they are written, with `/` between their components. A path is kept and shown as it was
put together; two paths are the same when their components are, so `a//b/.` is the same path as
`a/b`, but `./a` is not the same as `a`.
-/

namespace Mustache

structure Path where
  text : String
  deriving Repr, Inhabited

namespace Path

def isAbsolute (p : Path) : Bool :=
  p.text.toList.head? == some '/'

/-- `q` as seen from the directory `p`. An absolute path is where it is. -/
def join (p q : Path) : Path :=
  if q.isAbsolute then q
  else
    match p.text.toList.getLast? with
    | none => q
    | some '/' => ⟨p.text ++ q.text⟩
    | some _ => ⟨p.text ++ "/" ++ q.text⟩

def parts (p : Path) : List String :=
  (Text.split '/' p.text.toList).map String.ofList

/-- The steps of a path. Empty parts and `.` are no steps, except for a `.` that a relative path
begins with. -/
def components (p : Path) : List String :=
  let steps := p.parts.filter fun part => part != "" && part != "."
  if p.isAbsolute then "/" :: steps
  else if p.parts.head? == some "." then "." :: steps
  else steps

instance : BEq Path := ⟨fun p q => p.components == q.components⟩

theorem beq_iff {p q : Path} : p == q ↔ p.components = q.components := by
  show (p.components == q.components) = true ↔ _
  exact beq_iff_eq

instance : EquivBEq Path := equivBEq_of_iff_apply_eq components fun _ _ => beq_iff

def fileName (p : Path) : Option String :=
  match p.components.getLast? with
  | none => none
  | some part => if part == "/" || part == "." || part == ".." then none else some part

/-- A name before and after its last dot. A dot at its start begins no extension. -/
def splitExtension (name : List Char) : List Char × Option (List Char) :=
  let extension := (name.reverse.takeWhile (· != '.')).reverse
  let stem := (name.reverse.dropWhile (· != '.')).tail.reverse
  if stem.isEmpty then (name, none) else (stem, some extension)

def extension (p : Path) : Option String :=
  match p.fileName with
  | none => none
  | some name => (splitExtension name.toList).2.map String.ofList

/-- The path of a file beside `p` with `extension` in the place of its own, `p` ending in the
name of a file. -/
def withExtension (p : Path) (extension : String) : Path :=
  let directory := (p.text.toList.reverse.dropWhile (· != '/')).reverse
  let name := (p.text.toList.reverse.takeWhile (· != '/')).reverse
  ⟨String.ofList directory ++ String.ofList (splitExtension name).1 ++ "." ++ extension⟩

end Path

end Mustache
