import Mustache.Value

/-!
# Mustache.Host

What a host program supplies behind the handles in its values: how its lambdas answer a text, and
what its records hold under a key and answer to a method without arguments. `η` is what the host
keeps between one use and the next, so an answer may depend on all uses before it.

Looking up a key in a value (`Host.get`, `Host.getOrCall`, `Host.follow`) is here because records
take part in it.
-/

namespace Mustache

structure Host (η : Type) where
  call : Lambda → String → η → Value × η
  field : Record → String → η → Option Value × η
  method : Record → String → η → Option Value × η
  /-- How deep the texts of lambdas may be entered from one another before the program is out of
  stack. Nothing else bounds them. -/
  stack : Nat := 4096

namespace Host

variable {η : Type}

def empty : Host Unit where
  call _ _ s := (.null, s)
  field _ _ s := (none, s)
  method _ _ s := (none, s)

/-- Maps answer by key, lists by index, and records as the host has it. -/
def get (host : Host η) (value : Value) (key : String) (s : η) : Option Value × η :=
  match value with
  | .map fields => (Fields.get? fields key, s)
  | .list items =>
    match Value.index? key with
    | some i => (items[i]?, s)
    | none => (none, s)
  | .record record => host.field record key s
  | _ => (none, s)

/-- Only records have methods. -/
def invoke (host : Host η) (value : Value) (key : String) (s : η) : Option Value × η :=
  match value with
  | .record record => host.method record key s
  | _ => (none, s)

/-- A method is asked only where there is nothing under the key. -/
def getOrCall (host : Host η) (value : Value) (key : String) (s : η) : Option Value × η :=
  match host.get value key s with
  | (some v, s') => (some v, s')
  | (none, s') => host.invoke value key s'

def follow (host : Host η) (value : Value) : List String → η → Option Value × η
  | [], s => (some value, s)
  | key :: keys, s =>
    match host.getOrCall value key s with
    | (none, s') => (none, s')
    | (some v, s') => host.follow v keys s'

/-- The answer of the first frame that has one. -/
def search (host : Host η) (key : String) : List Value → η → Option Value × η
  | [], s => (none, s)
  | frame :: frames, s =>
    match host.getOrCall frame key s with
    | (some v, s') => (some v, s')
    | (none, s') => host.search key frames s'

end Host

end Mustache
