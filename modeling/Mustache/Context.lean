import Mustache.Error
import Mustache.Host
import Mustache.KeyPath

/-!
# Mustache.Context

The scopes that a template is rendered against: a stack of frames, and globals below all of them.

Only the first segment of a path is looked for on the stack, from the innermost frame outwards
and then among the globals. The first frame that answers decides, whether the other segments can
be followed from its answer or not.
-/

namespace Mustache

structure Context where
  globals : Fields
  /-- Innermost first. -/
  frames : List Value
  /-- Whether a path that leads nowhere is an error, rather than null. -/
  raiseOnMiss : Bool
  /-- How many partials are being rendered, each inside the one before. -/
  partialDepth : Nat
  deriving Repr

namespace Context

variable {η : Type}

def empty : Context := ⟨[], [], false, 0⟩

def ofValue (value : Value) : Context := { empty with frames := [value] }

def withPolicy (c : Context) (raise : Bool) : Context := { c with raiseOnMiss := raise }

def set (c : Context) (key : String) (value : Value) : Context :=
  { c with globals := c.globals.insert key value }

def push (c : Context) (frame : Value) : Context := { c with frames := frame :: c.frames }

def pop (c : Context) : Context := { c with frames := c.frames.tail }

def depth (c : Context) : Nat := c.frames.length

def current (c : Context) : Option Value := c.frames.head?

def lookup (c : Context) (host : Host η) (path : KeyPath) (s : η) : Option Value × η :=
  match path.segments with
  | [] => (c.current, s)
  | first :: rest =>
    match host.search first c.frames s with
    | (some v, s') => host.follow v rest s'
    | (none, s') =>
      match c.globals.get? first with
      | some v => host.follow v rest s'
      | none => (none, s')

/-- The value at a path; where there is none, null or the error that the policy asks for. -/
def resolve (c : Context) (host : Host η) (path : KeyPath) (s : η) : Except Error Value × η :=
  match c.lookup host path s with
  | (some v, s') => (.ok v, s')
  | (none, s') => (if c.raiseOnMiss then .error (.contextMiss path.raw) else .ok .null, s')

end Context

end Mustache
