import Mustache.Host

/-!
# Mustache.Host.Scripted

Hosts whose lambdas and records are given as data. A lambda knows how often it has been called,
and what has a name in the journal leaves a line there each time it is used.
-/

namespace Mustache

inductive Behaviour where
  | echo
  | wrap (before after : String)
  | length
  | count
  /-- One result after the other, and the last from then on. -/
  | sequence (results : List Value)
  deriving Repr, Inhabited

structure ScriptedLambda where
  behaviour : Behaviour
  journalName : Option String
  deriving Repr

structure ScriptedRecord where
  fields : Fields
  methods : Fields
  journalName : Option String
  deriving Repr

structure Script where
  lambdas : List ScriptedLambda
  records : List ScriptedRecord
  deriving Repr

/-- How often each lambda was called, and what was noted, latest first. -/
structure Journal where
  calls : List Nat
  lines : List String
  deriving DecidableEq, Repr

namespace Journal

def empty : Journal := ⟨[], []⟩

def note (j : Journal) (name : Option String) (line : String) : Journal :=
  match name with
  | none => j
  | some name => { j with lines := (name ++ "." ++ line) :: j.lines }

def callsOf (j : Journal) (lambda : Lambda) : Nat := j.calls.count lambda.id

def countCall (j : Journal) (lambda : Lambda) : Journal :=
  { j with calls := lambda.id :: j.calls }

end Journal

namespace Script

def empty : Script := ⟨[], []⟩

def addLambda (s : Script) (lambda : ScriptedLambda) : Value × Script :=
  (.lambda ⟨s.lambdas.length⟩, { s with lambdas := s.lambdas ++ [lambda] })

def addRecord (s : Script) (record : ScriptedRecord) : Value × Script :=
  (.record ⟨s.records.length⟩, { s with records := s.records ++ [record] })

/-- The result of the call with this number, counted from one. -/
def answer (behaviour : Behaviour) (number : Nat) (text : String) : Value :=
  match behaviour with
  | .echo => .text text
  | .wrap before after => .text (before ++ text ++ after)
  | .length => .integer text.utf8ByteSize
  | .count => .text (toString number)
  | .sequence results => (results.take number).getLast?.getD .null

def call (s : Script) (lambda : Lambda) (text : String) (j : Journal) : Value × Journal :=
  match s.lambdas[lambda.id]? with
  | none => (.null, j)
  | some scripted =>
    let j := (j.note scripted.journalName s!"lambda({text})").countCall lambda
    (answer scripted.behaviour (j.callsOf lambda) text, j)

def field (s : Script) (record : Record) (key : String) (j : Journal) :
    Option Value × Journal :=
  match s.records[record.id]? with
  | none => (none, j)
  | some scripted => (scripted.fields.get? key, j.note scripted.journalName s!"get({key})")

def method (s : Script) (record : Record) (key : String) (j : Journal) :
    Option Value × Journal :=
  match s.records[record.id]? with
  | none => (none, j)
  | some scripted => (scripted.methods.get? key, j.note scripted.journalName s!"call({key})")

def host (s : Script) : Host Journal where
  call := s.call
  field := s.field
  method := s.method

end Script

end Mustache
