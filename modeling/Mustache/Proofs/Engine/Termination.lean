import Mustache.Proofs.Engine.Errors
import Mustache.Proofs.Render.Termination

/-!
# Mustache.Proofs.Engine.Termination

Engines render to an end, whatever their partials include.

The errors that an engine meets when it looks for a partial are those of sources, and none of them
is one of nesting (`Engine.not_ofNesting`), so a rendering fails for the depth of its partials for
no other reason than that depth (`Engine.render_ends`).
-/

namespace Mustache

namespace Engine

theorem not_ofNesting (e : Engine) (name : String) (store : Store) (error : Error)
    (h : (e.resolver.partialTemplate name store).1 = .error error) : ¬ error.OfNesting := by
  have hsources := e.resolver_plain.partialTemplate h
  cases error <;> first | exact hsources.elim | exact id

variable {η : Type}

/-- A rendering that calls no lambda ends, whatever partials the engine has: its answer is the same
at every limit that is above the number of partials that may be open, and so is that of
`Template.render`. All along, no more of them are open than may be. It fails for that exactly when
it comes to an instruction that opens a partial while so many are open already. -/
theorem render_ends (e : Engine) (host : Host η) (t : Template) (scene : Scene η Store)
    (hdepth : scene.context.partialDepth ≤ maxPartialDepth)
    (hcallsNone : Renderer.CallsNone ⟨t.options, host, e.resolver⟩ t.ops scene) :
    let r : Renderer η Store := ⟨t.options, host, e.resolver⟩
    ∃ answer scene', t.render host e.resolver scene = (answer, scene') ∧
      (∀ limit, maxPartialDepth < limit → r.execute limit t.ops scene = (answer, scene')) ∧
      answer ≠ .error .expansionLimit ∧
      (∀ ops there, r.Reaches t.ops scene ops there →
        there.context.partialDepth ≤ maxPartialDepth) ∧
      ∀ name depth, answer = .error (.partialRecursion name depth) ↔
        depth = maxPartialDepth ∧ r.Stuck t.ops scene name := by
  intro r
  obtain ⟨answer, scene', hexecute, hlimit, hstuck⟩ :=
    Renderer.execute_ends e.not_ofNesting hdepth hcallsNone
  have hsame (limit : Nat) (h : maxPartialDepth < limit) :
      r.execute limit t.ops scene = (answer, scene') :=
    hexecute limit (Nat.lt_of_lt_of_le h (Nat.le_add_left ..))
  refine ⟨answer, scene', hsame _ (by omega), hsame, hlimit, ?_, hstuck⟩
  exact fun ops there h => h.depth_le hdepth

/-- A partial that includes itself without end is come to once too often. -/
theorem render_ends_recursion :
    let e : Engine := ⟨{ compiler := { includePartialCode := true } },
      [("a", "\x7b\x7bx\x7d\x7d\x7b\x7b>a\x7d\x7d")]⟩
    let t : Template := ⟨e.options.compiler, [.partialRef "a" ""], []⟩
    let scene : Scene Unit Store :=
      ⟨.ofValue (.map [("x", .integer 1)]), (), ⟨.ofMode .disabled, .empty⟩⟩
    let r : Renderer Unit Store := ⟨t.options, .empty, e.resolver⟩
    scene.context.partialDepth ≤ maxPartialDepth ∧ r.CallsNone t.ops scene ∧
    (t.render .empty e.resolver scene).1 = .error (.partialRecursion "a" 128) ∧
    r.Stuck t.ops scene "a" := by
  intro e t scene r
  have hhost : Host.LambdaFree Host.empty := by
    rintro _ _ _ _ (h | h) <;> cases h
  have hcallsNone : r.CallsNone t.ops scene :=
    Renderer.callsNone_of_values hhost (by decide) (by decide)
  have hends := e.render_ends .empty t scene (by decide) hcallsNone
  obtain ⟨answer, scene', hrender, -, -, -, hstuck⟩ := hends
  have hanswer : (t.render .empty e.resolver scene).1 = .error (.partialRecursion "a" 128) := by
    decide +kernel
  rw [hrender] at hanswer
  refine ⟨by decide, hcallsNone, ?_, ((hstuck "a" 128).1 hanswer).2⟩
  rw [hrender]
  exact hanswer

end Engine

end Mustache
