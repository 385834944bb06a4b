import Mustache.Context
import Mustache.Template.Compile
import Mustache.Text.Html
import Mustache.Text.Indentation

/-!
# Mustache.Template.Render

Rendering a compiled template against a context.

A rendering reads and changes a `Scene`: the context, with the frames and partials that are open
at the moment; what the host keeps; and what the source of partials keeps. `withFrame` and
`insidePartial` close what they open, also when the rendering inside them fails.

Instructions are carried out by recursion on them (`Op.renderAll`). Other templates are entered in
two places, at references to partials and at text that a lambda returns, and `execute` bounds how
deep templates are entered from one another. Partials bound themselves before that bound is
reached; only lambdas that go on returning lambdas can reach it.
-/

namespace Mustache

/-- Where templates come from while one is rendered, with `σ` for what is kept on the way. -/
structure Resolver (σ : Type) where
  partialTemplate : String → σ → Except Error (Option Template) × σ
  dynamicTemplate : String → Delimiters → σ → Except Error Template × σ

structure Scene (η σ : Type) where
  context : Context
  host : η
  store : σ

/-- A step of rendering: an error leaves the scene as it then is. -/
abbrev Render (η σ α : Type) := ExceptT Error (StateM (Scene η σ)) α

structure Renderer (η σ : Type) where
  options : CompilerOptions
  host : Host η
  resolver : Resolver σ

namespace Renderer

variable {η σ : Type}

/-! ## Steps -/

def resolve (r : Renderer η σ) (path : KeyPath) : Render η σ Value := fun scene =>
  let (value, host) := scene.context.resolve r.host path scene.host
  (value, { scene with host := host })

def call (r : Renderer η σ) (lambda : Lambda) (text : String) : Render η σ Value := fun scene =>
  let (value, host) := r.host.call lambda text scene.host
  (.ok value, { scene with host := host })

def partialTemplate (r : Renderer η σ) (name : String) : Render η σ (Option Template) :=
  fun scene =>
    let (template, store) := r.resolver.partialTemplate name scene.store
    (template, { scene with store := store })

def dynamicTemplate (r : Renderer η σ) (source : String) (delimiters : Delimiters) :
    Render η σ Template := fun scene =>
  let (template, store) := r.resolver.dynamicTemplate source delimiters scene.store
  (template, { scene with store := store })

def withFrame (frame : Value) (body : Render η σ String) : Render η σ String := fun scene =>
  let (text, scene') := body { scene with context := scene.context.push frame }
  (text, { scene' with context := scene'.context.pop })

def insidePartial (name : String) (body : Render η σ String) : Render η σ String := fun scene =>
  let depth := scene.context.partialDepth
  if depth < maxPartialDepth then
    let (text, scene') :=
      body { scene with context := { scene.context with partialDepth := depth + 1 } }
    (text, { scene' with
      context := { scene'.context with partialDepth := scene'.context.partialDepth - 1 } })
  else (.error (.partialRecursion name maxPartialDepth), scene)

/-- Renders once for each item, which is the innermost frame meanwhile. -/
def eachFrame (body : Render η σ String) : List Value → Render η σ String
  | [] => pure ""
  | item :: items => do
    let first ← withFrame item body
    let rest ← eachFrame body items
    pure (first ++ rest)

def indented (r : Renderer η σ) (indent text : String) : String :=
  if r.options.disableIndentation then indent ++ text
  else String.ofList (Text.indentLines indent.toList text.toList)

/-- What a lambda makes of `raw`. Text is a template again, read with `delimiters`. -/
def expand (r : Renderer η σ) (enter : List Op → Render η σ String) (lambda : Lambda)
    (raw : String) (delimiters : Delimiters) : Render η σ String := do
  match ← r.call lambda raw with
  | .text source =>
    let template ← r.dynamicTemplate source delimiters
    enter template.ops
  | value => pure value.interpolated

/-- The text that a tag for a value writes, before it is escaped. -/
def interpolate (r : Renderer η σ) (enter : List Op → Render η σ String) (value : Value) :
    Render η σ String :=
  match value with
  | .lambda lambda =>
    if r.options.disableLambdas then pure "" else r.expand enter lambda "" .standard
  | _ => pure value.interpolated

end Renderer

/-! ## Instructions -/

namespace Op

variable {η σ : Type}

mutual

/-- `enter` renders the instructions of another template. -/
def render (r : Renderer η σ) (enter : List Op → Render η σ String) : Op → Render η σ String
  | .text s => pure s
  | .interpolation path escaped => do
    let value ← r.resolve path
    let text ← r.interpolate enter value
    pure (if escaped then String.ofList (Text.escapeHtml text.toList) else text)
  | .block path body raw delimiters => do
    let value ← r.resolve path
    match value with
    | .lambda lambda =>
      if r.options.disableLambdas then Renderer.withFrame value (renderAll r enter body)
      else r.expand enter lambda raw delimiters
    | .list items => Renderer.eachFrame (renderAll r enter body) items
    | _ =>
      if value.isTruthy then Renderer.withFrame value (renderAll r enter body) else pure ""
  | .inverted path body => do
    let value ← r.resolve path
    if value.isTruthy then pure "" else renderAll r enter body
  | .partialRef name indent =>
    Renderer.insidePartial name do
      match ← r.partialTemplate name with
      | none => pure ""
      | some template =>
        let text ← enter template.ops
        pure (r.indented indent text)
  | .inlined name indent body =>
    Renderer.insidePartial name do
      let text ← renderAll r enter body
      pure (r.indented indent text)

def renderAll (r : Renderer η σ) (enter : List Op → Render η σ String) :
    List Op → Render η σ String
  | [] => pure ""
  | op :: ops => do
    let first ← render r enter op
    let rest ← renderAll r enter ops
    pure (first ++ rest)

end

end Op

/-! ## Templates -/

variable {η σ : Type}

/-- Renders instructions, with templates entered from one another at most `limit - 1` deep. -/
def Renderer.execute (r : Renderer η σ) : (limit : Nat) → List Op → Render η σ String
  | 0, _ => throw .expansionLimit
  | limit + 1, ops => Op.renderAll r (r.execute limit) ops

namespace Template

/-- Renders a template with its own options, which hold for the templates it enters too. -/
def render (template : Template) (host : Host η) (resolver : Resolver σ) : Render η σ String :=
  Renderer.execute ⟨template.options, host, resolver⟩
    (1 + maxPartialDepth + host.stack) template.ops

end Template

/-- No partial exists, and text that lambdas return is compiled each time. -/
def Resolver.noPartials (options : CompilerOptions) : Resolver Unit where
  partialTemplate _ s := (.ok none, s)
  dynamicTemplate source delimiters s :=
    (Template.ofSource source delimiters options .none, s)

end Mustache
