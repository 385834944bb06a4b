import Mustache.Error
import Mustache.Fingerprint
import Mustache.KeyPath

/-!
# Mustache.Template

Compiled templates: lists of instructions, and a record of the partials whose source went into
them. A template stays of use while those partials are what they were (`Template.isCurrent`).
-/

namespace Mustache

inductive Op where
  | text (text : String)
  | interpolation (path : KeyPath) (escaped : Bool)
  /-- A lambda receives `raw`, and the text it returns is read with `delimiters`. -/
  | block (path : KeyPath) (body : List Op) (raw : String) (delimiters : Delimiters)
  | inverted (path : KeyPath) (body : List Op)
  /-- A partial that is looked up when the template is rendered. -/
  | partialRef (name : String) (indent : String)
  /-- A partial that was compiled into the template. -/
  | inlined (name : String) (indent : String) (body : List Op)
  deriving Repr

/-- Induction on a list of instructions and on the instructions inside of them. -/
@[elab_as_elim]
theorem Op.listInduction {P : List Op → Prop} (nil : P [])
    (text : ∀ s ops, P ops → P (.text s :: ops))
    (interpolation : ∀ path escaped ops, P ops → P (.interpolation path escaped :: ops))
    (block : ∀ path body raw delimiters ops, P body → P ops →
      P (.block path body raw delimiters :: ops))
    (inverted : ∀ path body ops, P body → P ops → P (.inverted path body :: ops))
    (partialRef : ∀ name indent ops, P ops → P (.partialRef name indent :: ops))
    (inlined : ∀ name indent body ops, P body → P ops → P (.inlined name indent body :: ops))
    (ops : List Op) : P ops :=
  Op.rec_1 (motive_1 := fun op => ∀ ops, P ops → P (op :: ops)) (motive_2 := P)
    text interpolation
    (fun path body raw delimiters hbody ops => block path body raw delimiters ops hbody)
    (fun path body hbody ops => inverted path body ops hbody)
    partialRef (fun name indent body hbody ops => inlined name indent body ops hbody)
    nil (fun _ ops hop hops => hop ops hops) ops

/-- A partial that was compiled into a template, in the version of that time; without one, it did
not exist and compiled to nothing. -/
structure Dependency where
  name : String
  source : Option SourceVersion
  deriving Repr

structure Template where
  options : CompilerOptions
  ops : List Op
  dependencies : List Dependency
  deriving Repr

structure PartialSources where
  source : String → Except Error (Option String)
  version : String → Except Error (Option SourceVersion)

def PartialSources.none : PartialSources where
  source _ := .ok Option.none
  version _ := .ok Option.none

namespace Template

def allCurrent (partials : PartialSources) : List Dependency → Except Error Bool
  | [] => .ok true
  | dependency :: dependencies =>
    match partials.version dependency.name with
    | .error error => .error error
    | .ok version =>
      if version == dependency.source then allCurrent partials dependencies else .ok false

/-- Whether every partial in the template is still in the version that was compiled. -/
def isCurrent (template : Template) (partials : PartialSources) : Except Error Bool :=
  allCurrent partials template.dependencies

end Template

end Mustache
