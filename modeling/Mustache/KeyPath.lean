import Mustache.Text.Search

/-!
# Mustache.KeyPath

Dotted references to values. The path `.` stands for the innermost frame and has no segments; all
others are cut at every dot, and an empty segment is a key like any other.
-/

namespace Mustache

structure KeyPath where
  raw : String
  segments : List String
  deriving DecidableEq, Repr

namespace KeyPath

def ofString (raw : String) : KeyPath :=
  if raw = "." then ⟨raw, []⟩
  else ⟨raw, (Text.split '.' raw.toList).map String.ofList⟩

def isImplicit (p : KeyPath) : Bool := p.segments.isEmpty

end KeyPath

end Mustache
