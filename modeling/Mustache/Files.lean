import Mustache.Files.Fault
import Mustache.Path

/-!
# Mustache.Files

A tree of files and directories, as a value. Paths are taken from its top, absolute ones as well as
others, and there is nothing outside of it.

A path is walked one step at a time: each step needs a directory to stand in, `..` goes back up,
and a separator at the end asks for a directory. Reading and writing then work on the place that a
path leads to. What was created last is listed first.
-/

namespace Mustache

/-- The place of a file or directory: the names on the way to it from the top. -/
abbrev Place := List String

inductive Entry where
  /-- The time of modification is in milliseconds and may lie before the count begins. -/
  | file (content : ByteArray) (modified : Int)
  | directory

structure Files where
  entries : List (Place × Entry)

namespace Files

def empty : Files := ⟨[]⟩

/-! ## Places -/

/-- What is at a place; the top is a directory. -/
def entryAt (files : Files) (place : Place) : Option Entry :=
  if place.isEmpty then some .directory
  else
    match files.entries.find? (·.1 == place) with
    | some (_, entry) => some entry
    | none => none

def put (files : Files) (place : Place) (entry : Entry) : Files :=
  if (files.entryAt place).isSome then
    ⟨files.entries.map fun e => if e.1 == place then (place, entry) else e⟩
  else ⟨(place, entry) :: files.entries⟩

def dropTree (files : Files) (place : Place) : Files :=
  ⟨files.entries.filter fun e => !place.isPrefixOf e.1⟩

def drop (files : Files) (place : Place) : Files :=
  ⟨files.entries.filter fun e => e.1 != place⟩

def steps (path : Path) : List String :=
  path.parts.filter (· != "") ++ if path.parts.getLast? == some "" then ["."] else []

/-- Goes on from a place by one step after the other. The last may lead to where nothing is. -/
def walk (files : Files) (here : Place) : List String → Except Fault Place
  | [] => .ok here
  | step :: steps =>
    match files.entryAt here with
    | none => .error .notFound
    | some (.file _ _) => .error .notDirectory
    | some .directory =>
      if step = "." then files.walk here steps
      else if step = ".." then
        if here.isEmpty then .error .notFound else files.walk here.dropLast steps
      else files.walk (here ++ [step]) steps

def locate (files : Files) (path : Path) : Except Fault Place :=
  if path.text.isEmpty then .error .notFound
  else files.walk [] (steps path)

def find (files : Files) (path : Path) : Except Fault (Place × Entry) :=
  match files.locate path with
  | .error fault => .error fault
  | .ok place =>
    match files.entryAt place with
    | none => .error .notFound
    | some entry => .ok (place, entry)

/-! ## Reading -/

def read (files : Files) (path : Path) : Except Fault ByteArray :=
  match files.find path with
  | .error fault => .error fault
  | .ok (_, .directory) => .error .isDirectory
  | .ok (_, .file content _) => .ok content

def readText (files : Files) (path : Path) : Except Fault String :=
  match files.read path with
  | .error fault => .error fault
  | .ok content =>
    match String.fromUTF8? content with
    | some text => .ok text
    | none => .error .invalidEncoding

def isFile (files : Files) (path : Path) : Bool :=
  match files.find path with
  | .ok (_, .file _ _) => true
  | _ => false

def directorySize : Nat := 4096

/-- The time of modification, not before the count begins, and the size. -/
def version (files : Files) (path : Path) : Except Fault (Nat × Nat) :=
  match files.find path with
  | .error fault => .error fault
  | .ok (_, .file content modified) => .ok (modified.toNat, content.size)
  | .ok (_, .directory) => .ok (0, directorySize)

def list (files : Files) (path : Path) : Except Fault (List (String × Entry)) :=
  match files.find path with
  | .error fault => .error fault
  | .ok (_, .file _ _) => .error .notDirectory
  | .ok (place, .directory) =>
    .ok (files.entries.filterMap fun (p, entry) =>
      if p.dropLast == place then p.getLast?.map (·, entry) else none)

/-! ## Writing -/

def createSteps (files : Files) (here : Place) : List String → Except Fault Files
  | [] => .ok files
  | step :: steps =>
    if step = "." then files.createSteps here steps
    else if step = ".." then
      if here.isEmpty then .error .notFound else files.createSteps here.dropLast steps
    else
      match files.entryAt (here ++ [step]) with
      | none => (files.put (here ++ [step]) .directory).createSteps (here ++ [step]) steps
      | some .directory => files.createSteps (here ++ [step]) steps
      | some (.file _ _) => .error (if steps.isEmpty then .exists else .notDirectory)

def createDirectory (files : Files) (path : Path) : Except Fault Files :=
  files.createSteps [] (path.parts.filter (· != ""))

/-- The place of a file that may be written. Its directory must be there. -/
def locateFile (files : Files) (path : Path) : Except Fault Place :=
  if path.text.isEmpty then .error .notFound
  else
    match files.walk [] (path.parts.filter (· != "")) with
    | .error fault => .error fault
    | .ok place =>
      match files.entryAt place, path.parts.getLast? with
      | some .directory, _ => .error .isDirectory
      | _, some "" => .error .isDirectory
      | _, _ => .ok place

def write (files : Files) (path : Path) (content : ByteArray) (modified : Int) :
    Except Fault Files :=
  match files.locateFile path with
  | .error fault => .error fault
  | .ok place => .ok (files.put place (.file content modified))

def remove (files : Files) (path : Path) : Except Fault Files :=
  match files.find path with
  | .error fault => .error fault
  | .ok (_, .directory) => .error .isDirectory
  | .ok (place, .file _ _) => .ok (files.drop place)

def removeTree (files : Files) (path : Path) : Files :=
  match files.locate path with
  | .error _ => files
  | .ok place => files.dropTree place

/-- Gives a file another path, in the place of the file that was there. -/
def rename (files : Files) (source target : Path) : Except Fault Files :=
  match files.find source with
  | .error fault => .error fault
  | .ok (place, entry) =>
    match files.locateFile target with
    | .error fault => .error fault
    | .ok place' => .ok ((files.drop place).put place' entry)

def writeWithParents (files : Files) (path : Path) (content : ByteArray) (modified : Int) :
    Except Fault Files :=
  match files.createSteps [] (path.parts.filter (· != "")).dropLast with
  | .error fault => .error fault
  | .ok files => files.write path content modified

end Files

end Mustache
