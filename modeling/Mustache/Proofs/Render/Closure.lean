import Mustache.Proofs.Render.Realization
import Mustache.Proofs.Render.Steps

/-!
# Mustache.Proofs.Render.Closure

What holds of the single steps of a renderer, and of whole renderings therefore.

`Render.Closed` says of a kind of steps that it is closed under the ways in which steps are put
together. If the four steps of a renderer that look outside the template are of such a kind, so is
every rendering (`Renderer.StepsIn.execute`), whatever it looks paths up with (`Steps.In`). One such
kind are the steps that leave the context as they find it, and those of every renderer are of that
kind (`Template.render_context`).

Instructions that are put together by `Op.append` render one after the other (`renderAll_append`).
-/

namespace Mustache

variable {η σ : Type}

/-- Steps that are put together from steps of this kind are of this kind. -/
structure Render.Closed (K : ∀ {α : Type}, Render η σ α → Prop) : Prop where
  pure {α : Type} (a : α) : K (Pure.pure a : Render η σ α)
  throw : K (MonadExcept.throw .expansionLimit : Render η σ String)
  bind {α β : Type} {m : Render η σ α} {f : α → Render η σ β} :
    K m → (∀ a, K (f a)) → K (m >>= f)
  withFrame {m : Render η σ String} (frame : Value) : K m → K (Renderer.withFrame frame m)
  insidePartial {m : Render η σ String} (name : String) :
    K m → K (Renderer.insidePartial name m)

structure Steps.In (K : ∀ {α : Type}, Render η σ α → Prop) (s : Steps η σ) : Prop where
  resolve (path : KeyPath) : K (s.resolve path)
  call (lambda : Lambda) (text : String) : K (s.renderer.call lambda text)
  partialTemplate (name : String) : K (s.renderer.partialTemplate name)
  dynamicTemplate (source : String) (delimiters : Delimiters) :
    K (s.renderer.dynamicTemplate source delimiters)

abbrev Renderer.StepsIn (K : ∀ {α : Type}, Render η σ α → Prop) (r : Renderer η σ) : Prop :=
  r.steps.In K

section Closed

variable {K : ∀ {α : Type}, Render η σ α → Prop} {s : Steps η σ} {r : Renderer η σ}
  {enter : List Op → Render η σ String}

theorem Render.Closed.eachFrame (hK : Render.Closed K) {m : Render η σ String} (h : K m)
    (items : List Value) : K (Renderer.eachFrame m items) := by
  induction items with
  | nil => exact hK.pure ""
  | cons item items ih =>
    rw [Renderer.eachFrame]
    exact hK.bind (hK.withFrame item h) fun _ => hK.bind ih fun _ => hK.pure _

section Steps

variable (hK : Render.Closed K) (hs : s.In K) (henter : ∀ ops, K (enter ops))
include hK hs henter

theorem Steps.In.expand (lambda : Lambda) (raw : String) (delimiters : Delimiters) :
    K (s.renderer.expand enter lambda raw delimiters) := by
  refine hK.bind (hs.call lambda raw) fun v => ?_
  cases v with
  | text source =>
    exact hK.bind (hs.dynamicTemplate source delimiters) fun template => henter template.ops
  | _ => exact hK.pure _

theorem Steps.In.interpolate (value : Value) : K (s.renderer.interpolate enter value) := by
  cases value with
  | lambda lambda =>
    rw [Renderer.interpolate]
    split
    · exact hK.pure _
    · exact hs.expand hK henter lambda _ _
  | _ => exact hK.pure _

theorem Steps.In.sectionText {body : Render η σ String} (hbody : K body) (value : Value)
    (raw : String) (delimiters : Delimiters) :
    K (s.renderer.sectionText enter value body raw delimiters) := by
  cases value with
  | lambda lambda =>
    rw [Renderer.sectionText]
    split
    · exact hK.withFrame _ hbody
    · exact hs.expand hK henter lambda _ _
  | list items => exact hK.eachFrame hbody items
  | _ =>
    dsimp only [Renderer.sectionText]
    split
    · exact hK.withFrame _ hbody
    · exact hK.pure _

theorem Steps.In.renderAll (ops : List Op) : K (s.renderAll enter ops) := by
  have hcons : ∀ {op ops}, K (s.render enter op) → K (s.renderAll enter ops) →
      K (s.renderAll enter (op :: ops)) := by
    intro op ops hop hops
    rw [Steps.renderAll]
    exact hK.bind hop fun _ => hK.bind hops fun _ => hK.pure _
  induction ops using Op.listInduction with
  | nil =>
    rw [Steps.renderAll]
    exact hK.pure _
  | text s ops ih =>
    refine hcons ?_ ih
    rw [Steps.render]
    exact hK.pure _
  | interpolation path escaped ops ih =>
    refine hcons ?_ ih
    rw [Steps.render]
    exact hK.bind (hs.resolve path) fun v =>
      hK.bind (hs.interpolate hK henter v) fun _ => hK.pure _
  | block path body raw delimiters ops ihbody ih =>
    refine hcons ?_ ih
    rw [Steps.render]
    exact hK.bind (hs.resolve path) fun v =>
      hs.sectionText hK henter ihbody v raw delimiters
  | inverted path body ops ihbody ih =>
    refine hcons ?_ ih
    rw [Steps.render]
    refine hK.bind (hs.resolve path) fun v => ?_
    split
    · exact hK.pure _
    · exact ihbody
  | partialRef name indent ops ih =>
    refine hcons ?_ ih
    rw [Steps.render]
    refine hK.insidePartial name (hK.bind (hs.partialTemplate name) fun found => ?_)
    cases found with
    | none => exact hK.pure _
    | some template => exact hK.bind (henter template.ops) fun _ => hK.pure _
  | inlined name indent body ops ihbody ih =>
    refine hcons ?_ ih
    rw [Steps.render]
    exact hK.insidePartial name (hK.bind ihbody fun _ => hK.pure _)

omit henter in
theorem Steps.In.execute (limit : Nat) (ops : List Op) : K (s.execute limit ops) := by
  induction limit generalizing ops with
  | zero => exact hK.throw
  | succ limit ih => exact hs.renderAll hK ih ops

end Steps

theorem Renderer.StepsIn.renderAll (hr : r.StepsIn K) (hK : Render.Closed K)
    (henter : ∀ ops, K (enter ops)) (ops : List Op) : K (Op.renderAll r enter ops) :=
  r.steps_renderAll enter ops ▸ Steps.In.renderAll hK hr henter ops

theorem Renderer.StepsIn.execute (hr : r.StepsIn K) (hK : Render.Closed K) (limit : Nat)
    (ops : List Op) : K (r.execute limit ops) :=
  r.steps_execute limit ops ▸ Steps.In.execute hK hr limit ops

end Closed

/-! ## Instructions one after the other -/

section Append

variable {r : Renderer η σ} {enter : List Op → Render η σ String}

theorem renderAll_append (ops more : List Op) :
    Op.renderAll r enter (Op.append ops more) =
      (do
        let first ← Op.renderAll r enter ops
        let rest ← Op.renderAll r enter more
        pure (first ++ rest)) := by
  fun_induction Op.append ops more with
  | case1 more => simp only [Op.renderAll, pure_bind, String.empty_append, bind_pure]
  | case2 a b more =>
    simp only [Op.renderAll, Op.render, bind_assoc, pure_bind, String.append_assoc,
      String.append_empty]
  | case3 op ops more _ ih =>
    simp only [Op.renderAll, ih, bind_assoc, pure_bind, String.append_assoc]

theorem renderAll_append_text (s : String) (ops : List Op) :
    Op.renderAll r enter (Op.append [.text s] ops) =
      (do
        let first ← Op.render r enter (.text s)
        let rest ← Op.renderAll r enter ops
        pure (first ++ rest)) := by
  simp only [renderAll_append, Op.renderAll, bind_assoc, pure_bind, String.append_empty]

end Append

/-! ## The context -/

/-- The step leaves the context as it finds it. -/
def Render.Restores {α : Type} (m : Render η σ α) : Prop :=
  ∀ scene, (m scene).2.context = scene.context

theorem Render.closed_restores : Render.Closed (η := η) (σ := σ) Render.Restores where
  pure _ _ := rfl
  throw _ := rfl
  bind := by
    intro α β m f hm hf scene
    have hcontext := hm scene
    rw [bind_apply]
    rcases hresult : m scene with ⟨e | a, scene'⟩ <;> rw [hresult] at hcontext
    · exact hcontext
    · exact (hf a scene').trans hcontext
  withFrame frame hm scene :=
    congrArg Context.pop (hm { scene with context := scene.context.push frame })
  insidePartial name hm scene := by
    simp only [Renderer.insidePartial]
    split
    · exact congrArg (fun c => { c with partialDepth := c.partialDepth - 1 })
        (hm { scene with context :=
          { scene.context with partialDepth := scene.context.partialDepth + 1 } })
    · rfl

theorem Renderer.stepsIn_restores (r : Renderer η σ) : r.StepsIn Render.Restores where
  resolve _ _ := rfl
  call _ _ _ := rfl
  partialTemplate _ _ := rfl
  dynamicTemplate _ _ _ := rfl

/-- A rendering leaves the context as it finds it, also when it fails. -/
theorem Template.render_context (t : Template) (host : Host η) (resolver : Resolver σ) :
    Render.Restores (t.render host resolver) :=
  (Renderer.stepsIn_restores _).execute Render.closed_restores _ t.ops

end Mustache
