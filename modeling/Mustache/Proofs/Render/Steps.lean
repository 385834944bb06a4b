import Mustache.Template.Render

/-!
# Mustache.Proofs.Render.Steps

Rendering with the lookup of paths left open.

What a path leads to is the only thing that instructions ask of the context. `Steps` are a renderer
with a lookup in the place of its own, which may for instance take notes, and `Steps.execute`
renders with it. With the lookup of the renderer itself it is rendering (`Renderer.steps_execute`),
so what is proved of all `Steps` is proved of renderers.
-/

namespace Mustache

/-- The frames that a section opens for a value, one at a time. -/
def Value.frames : Value → List Value
  | .list items => items
  | value => if value.isTruthy then [value] else []

variable {η σ : Type}

namespace Renderer

/-- What a section writes for a value: what a lambda makes of its text, or its body, rendered for
the value. -/
def sectionText (r : Renderer η σ) (enter : List Op → Render η σ String) (value : Value)
    (body : Render η σ String) (raw : String) (delimiters : Delimiters) : Render η σ String :=
  match value with
  | .lambda lambda =>
    if r.options.disableLambdas then withFrame value body
    else r.expand enter lambda raw delimiters
  | .list items => eachFrame body items
  | _ => if value.isTruthy then withFrame value body else pure ""

theorem eachFrame_singleton (body : Render η σ String) (frame : Value) :
    eachFrame body [frame] = withFrame frame body := by
  simp only [eachFrame, pure_bind, String.append_empty, bind_pure]

/-- A section whose value is not called is rendered once for each of its frames. -/
theorem sectionText_eq_eachFrame {r : Renderer η σ} {v : Value}
    (enter : List Op → Render η σ String) (body : Render η σ String) (raw : String)
    (delimiters : Delimiters)
    (hv : ∀ lambda, v = .lambda lambda → r.options.disableLambdas = true) :
    r.sectionText enter v body raw delimiters = eachFrame body v.frames := by
  cases v with
  | lambda lambda =>
    rw [sectionText, if_pos (hv lambda rfl)]
    exact (eachFrame_singleton body _).symm
  | list items => rfl
  | _ =>
    simp only [sectionText, Value.frames]
    split
    · exact (eachFrame_singleton body _).symm
    · rfl

end Renderer

theorem Op.render_block (r : Renderer η σ) (enter : List Op → Render η σ String) (path : KeyPath)
    (body : List Op) (raw : String) (delimiters : Delimiters) :
    Op.render r enter (.block path body raw delimiters) = (do
      let value ← r.resolve path
      r.sectionText enter value (Op.renderAll r enter body) raw delimiters) := by
  rw [Op.render]
  rfl

structure Steps (η σ : Type) where
  renderer : Renderer η σ
  resolve : KeyPath → Render η σ Value

def Renderer.steps (r : Renderer η σ) : Steps η σ := ⟨r, r.resolve⟩

namespace Steps

mutual

def render (s : Steps η σ) (enter : List Op → Render η σ String) : Op → Render η σ String
  | .text text => pure text
  | .interpolation path escaped => do
    let value ← s.resolve path
    let text ← s.renderer.interpolate enter value
    pure (if escaped then String.ofList (Text.escapeHtml text.toList) else text)
  | .block path body raw delimiters => do
    let value ← s.resolve path
    s.renderer.sectionText enter value (renderAll s enter body) raw delimiters
  | .inverted path body => do
    let value ← s.resolve path
    if value.isTruthy then pure "" else renderAll s enter body
  | .partialRef name indent =>
    Renderer.insidePartial name do
      match ← s.renderer.partialTemplate name with
      | none => pure ""
      | some template =>
        let text ← enter template.ops
        pure (s.renderer.indented indent text)
  | .inlined name indent body =>
    Renderer.insidePartial name do
      let text ← renderAll s enter body
      pure (s.renderer.indented indent text)

def renderAll (s : Steps η σ) (enter : List Op → Render η σ String) :
    List Op → Render η σ String
  | [] => pure ""
  | op :: ops => do
    let first ← render s enter op
    let rest ← renderAll s enter ops
    pure (first ++ rest)

end

def execute (s : Steps η σ) : (limit : Nat) → List Op → Render η σ String
  | 0, _ => throw .expansionLimit
  | limit + 1, ops => renderAll s (s.execute limit) ops

end Steps

/-! ## Renderers -/

namespace Renderer

variable (r : Renderer η σ) (enter : List Op → Render η σ String)

theorem steps_renderAll (ops : List Op) :
    r.steps.renderAll enter ops = Op.renderAll r enter ops := by
  have hcons : ∀ {op ops}, r.steps.render enter op = Op.render r enter op →
      r.steps.renderAll enter ops = Op.renderAll r enter ops →
      r.steps.renderAll enter (op :: ops) = Op.renderAll r enter (op :: ops) := by
    intro op ops hop hops
    rw [Steps.renderAll, Op.renderAll, hop, hops]
  induction ops using Op.listInduction with
  | nil => rw [Steps.renderAll, Op.renderAll]
  | text s ops ih => exact hcons (by rw [Steps.render, Op.render]) ih
  | interpolation path escaped ops ih =>
    exact hcons (by rw [Steps.render, Op.render]; rfl) ih
  | block path body raw delimiters ops ihbody ih =>
    exact hcons (by rw [Steps.render, Op.render, ihbody]; rfl) ih
  | inverted path body ops ihbody ih =>
    exact hcons (by rw [Steps.render, Op.render, ihbody]; rfl) ih
  | partialRef name indent ops ih => exact hcons (by rw [Steps.render, Op.render]; rfl) ih
  | inlined name indent body ops ihbody ih =>
    exact hcons (by rw [Steps.render, Op.render, ihbody]; rfl) ih

theorem steps_execute (limit : Nat) (ops : List Op) :
    r.steps.execute limit ops = r.execute limit ops := by
  induction limit generalizing ops with
  | zero => rfl
  | succ limit ih =>
    rw [Steps.execute, execute, show r.steps.execute limit = r.execute limit from funext ih]
    exact r.steps_renderAll _ ops

end Renderer

end Mustache
