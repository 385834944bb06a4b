/-!
# Mustache.Span

Places in the source of a template. A `Point` counts lines and columns from one, columns in
characters, and the offset in bytes of the UTF-8 form; a `Span` is the stretch between two
points.
-/

namespace Mustache

structure Point where
  line : Nat
  column : Nat
  offset : Nat
  deriving DecidableEq, Repr, Inhabited

namespace Point

def start : Point := ⟨1, 1, 0⟩

/-- A line feed ends the line it stands on. -/
def step (p : Point) (c : Char) : Point :=
  if c = '\n' then ⟨p.line + 1, 1, p.offset + c.utf8Size⟩
  else ⟨p.line, p.column + 1, p.offset + c.utf8Size⟩

def advance (p : Point) (text : List Char) : Point :=
  text.foldl step p

theorem advance_append (p : Point) (s t : List Char) :
    p.advance (s ++ t) = (p.advance s).advance t :=
  List.foldl_append

end Point

structure Span where
  start : Point
  stop : Point
  deriving DecidableEq, Repr, Inhabited

def Span.covering (start : Point) (text : List Char) : Span :=
  ⟨start, start.advance text⟩

def Span.bytes (s : Span) : Nat × Nat :=
  (s.start.offset, s.stop.offset)

end Mustache
