import Mustache.Proofs.Render.Closure
import Mustache.Proofs.Render.LambdaFree

/-!
# Mustache.Proofs.Render.Termination

Rendering ends where no lambda is called, and fails for the depth of partials exactly when a
partial is come to inside as many of them as may be open.

`Renderer.execute` enters templates from one another to a limit. What a step answers from some
limit on is what it answers without a limit: the step `Settles`. `Renderer.Reaches` are the
instructions that a rendering comes to, in order, each in the scene that it comes to it in.

Partials may include each other in any way, so there is no recursion on templates. What goes down
is how many more partials may be opened, and inside of one template its instructions
(`Renderer.ends`).
-/

namespace Mustache

/-- The errors of nesting too deeply, which come from rendering only. -/
def Error.OfNesting : Error → Prop
  | .partialRecursion .. | .expansionLimit => True
  | _ => False

namespace Op

def partialName? : Op → Option String
  | .partialRef name _ | .inlined name _ _ => some name
  | _ => none

def path? : Op → Option KeyPath
  | .interpolation path _ | .block path _ _ _ | .inverted path _ => some path
  | _ => none

end Op

variable {η σ α β : Type}

namespace Scene

def push (scene : Scene η σ) (frame : Value) : Scene η σ :=
  { scene with context := scene.context.push frame }

def deeper (scene : Scene η σ) : Scene η σ :=
  { scene with
    context := { scene.context with partialDepth := scene.context.partialDepth + 1 } }

def shallower (scene : Scene η σ) : Scene η σ :=
  { scene with
    context := { scene.context with partialDepth := scene.context.partialDepth - 1 } }

end Scene

namespace Renderer

/-! ## Evaluation -/

section Evaluation

variable (r : Renderer η σ)

/-- From `bound` on, the limit makes no difference to the answer of a step that enters templates. -/
def Settles (bound : Nat) (step : (List Op → Render η σ String) → Render η σ α)
    (scene : Scene η σ) (answer : Except Error α × Scene η σ) : Prop :=
  ∀ limit, bound ≤ limit → step (r.execute limit) scene = answer

/-- Rendering the first instructions in the first scene comes to the second instructions in the
second scene, without an error on the way. Lambdas are not followed. -/
inductive Reaches : List Op → Scene η σ → List Op → Scene η σ → Prop where
  | here {ops scene} : Reaches ops scene ops scene
  | next {op ops target first bound scene scene' there} :
      r.Settles bound (fun enter => Op.render r enter op) scene (.ok first, scene') →
      Reaches ops scene' target there → Reaches (op :: ops) scene target there
  | block {path body raw delimiters ops target v done frame left text bound scene scene₁ scene₂
      there} :
      r.resolve path scene = (.ok v, scene₁) →
      (∀ lambda, v = .lambda lambda → r.options.disableLambdas = true) →
      v.frames = done ++ frame :: left →
      r.Settles bound (fun enter => eachFrame (Op.renderAll r enter body) done) scene₁
        (.ok text, scene₂) →
      Reaches body (scene₂.push frame) target there →
      Reaches (.block path body raw delimiters :: ops) scene target there
  | inverted {path body ops target v scene scene₁ there} :
      r.resolve path scene = (.ok v, scene₁) → v.isTruthy = false →
      Reaches body scene₁ target there → Reaches (.inverted path body :: ops) scene target there
  | inlined {name indent body ops target scene there} :
      scene.context.partialDepth < maxPartialDepth → Reaches body scene.deeper target there →
      Reaches (.inlined name indent body :: ops) scene target there
  | partialRef {name indent ops target template scene scene₁ there} :
      scene.context.partialDepth < maxPartialDepth →
      r.partialTemplate name scene.deeper = (.ok (some template), scene₁) →
      Reaches template.ops scene₁ target there →
      Reaches (.partialRef name indent :: ops) scene target there

/-- Rendering comes to an instruction that opens the partial while no more may be opened. -/
def Stuck (ops : List Op) (scene : Scene η σ) (name : String) : Prop :=
  ∃ op rest there, r.Reaches ops scene (op :: rest) there ∧ op.partialName? = some name ∧
    there.context.partialDepth = maxPartialDepth

/-- Lambdas are disabled, or rendering looks none up. -/
def CallsNone (ops : List Op) (scene : Scene η σ) : Prop :=
  r.options.disableLambdas = true ∨
    ∀ op rest there path lambda, r.Reaches ops scene (op :: rest) there →
      op.path? = some path → (r.resolve path there).1 ≠ .ok (.lambda lambda)

end Evaluation

variable {r : Renderer η σ} {bound : Nat} {scene scene' : Scene η σ}

section Reaches

variable {ops target : List Op} {there : Scene η σ}

theorem Stuck.of_reaches {name : String} (h : r.Stuck target there name)
    (hreaches : ∀ {ops' scene'}, r.Reaches target there ops' scene' →
      r.Reaches ops scene ops' scene') : r.Stuck ops scene name := by
  obtain ⟨op, rest, scene', h, hname, hdepth⟩ := h
  exact ⟨op, rest, scene', hreaches h, hname, hdepth⟩

theorem CallsNone.of_reaches (h : r.CallsNone ops scene)
    (hreaches : ∀ {ops' scene'}, r.Reaches target there ops' scene' →
      r.Reaches ops scene ops' scene') : r.CallsNone target there :=
  h.imp_right fun h op rest scene' path lambda hthere => h op rest scene' path lambda
    (hreaches hthere)

end Reaches

/-! ## Blocks -/

theorem eachFrame_append (body : Render η σ String) (done left : List Value) :
    eachFrame body (done ++ left) =
      (do
        let first ← eachFrame body done
        let rest ← eachFrame body left
        pure (first ++ rest)) := by
  induction done with
  | nil => simp only [List.nil_append, eachFrame, pure_bind, String.empty_append, bind_pure]
  | cons frame done ih =>
    simp only [List.cons_append, eachFrame, ih, bind_assoc, pure_bind, String.append_assoc]

/-! ## Answers of instructions -/

namespace Settles

section Steps

variable {step : (List Op → Render η σ String) → Render η σ α}
  {next : (List Op → Render η σ String) → α → Render η σ β}

theorem mono {answer : Except Error α × Scene η σ} (h : r.Settles bound step scene answer)
    {bound' : Nat} (hle : bound ≤ bound') : r.Settles bound' step scene answer :=
  fun limit hlimit => h limit (Nat.le_trans hle hlimit)

theorem bind {a : α} {answer : Except Error β × Scene η σ}
    (h : r.Settles bound step scene (.ok a, scene'))
    (h' : r.Settles bound (fun enter => next enter a) scene' answer) :
    r.Settles bound (fun enter => step enter >>= next enter) scene answer := by
  intro limit hlimit
  show (step _ >>= next _) scene = answer
  rw [bind_apply, h limit hlimit]
  exact h' limit hlimit

theorem bind_error {error : Error} (h : r.Settles bound step scene (.error error, scene')) :
    r.Settles bound (fun enter => step enter >>= next enter) scene (.error error, scene') := by
  intro limit hlimit
  show (step _ >>= next _) scene = _
  rw [bind_apply, h limit hlimit]

end Steps

section Instructions

variable {step : (List Op → Render η σ String) → Render η σ String}
  {result : Except Error String} {answer : Except Error String × Scene η σ} {scene₁ : Scene η σ}
  {op : Op} {ops body : List Op} {error : Error}

theorem withFrame {frame : Value} (h : r.Settles bound step (scene.push frame) (result, scene')) :
    r.Settles bound (fun enter => Renderer.withFrame frame (step enter)) scene
      (result, { scene' with context := scene'.context.pop }) := by
  intro limit hlimit
  have hstep := h limit hlimit
  rw [Scene.push] at hstep
  simp only [Renderer.withFrame, hstep]

theorem insidePartial {name : String} (hdepth : scene.context.partialDepth < maxPartialDepth)
    (h : r.Settles bound step scene.deeper (result, scene')) :
    r.Settles bound (fun enter => Renderer.insidePartial name (step enter)) scene
      (result, scene'.shallower) := by
  intro limit hlimit
  have hstep := h limit hlimit
  rw [Scene.deeper] at hstep
  simp only [Renderer.insidePartial, if_pos hdepth, hstep]
  rfl

theorem cons_error (h : r.Settles bound (fun enter => Op.render r enter op) scene
      (.error error, scene')) :
    r.Settles bound (fun enter => Op.renderAll r enter (op :: ops)) scene
      (.error error, scene') := by
  simp only [Op.renderAll]
  exact h.bind_error

theorem block {path : KeyPath} {raw : String} {delimiters : Delimiters} {v : Value}
    (hresolve : r.resolve path scene = (.ok v, scene₁))
    (hv : ∀ lambda, v = .lambda lambda → r.options.disableLambdas = true)
    (h : r.Settles bound (fun enter => eachFrame (Op.renderAll r enter body) v.frames) scene₁
      answer) :
    r.Settles bound (fun enter => Op.render r enter (.block path body raw delimiters)) scene
      answer := by
  intro limit hlimit
  show Op.render r _ _ scene = answer
  rw [Op.render, bind_apply, hresolve]
  exact (congrFun (sectionText_eq_eachFrame _ _ raw delimiters hv) scene₁).trans (h limit hlimit)

theorem inverted {path : KeyPath} {v : Value}
    (hresolve : r.resolve path scene = (.ok v, scene₁)) (hv : v.isTruthy = false)
    (h : r.Settles bound (fun enter => Op.renderAll r enter body) scene₁ answer) :
    r.Settles bound (fun enter => Op.render r enter (.inverted path body)) scene answer := by
  intro limit hlimit
  show Op.render r _ _ scene = answer
  rw [Op.render, bind_apply, hresolve]
  dsimp only
  rw [hv]
  exact h limit hlimit

theorem enter (h : r.Settles bound (fun enter => Op.renderAll r enter ops) scene answer) :
    r.Settles (bound + 1) (fun enter => enter ops) scene answer := by
  rintro (_ | limit) hlimit
  · cases hlimit
  · exact h limit (Nat.le_of_succ_le_succ hlimit)

end Instructions

end Settles

/-! ## Scenes that are come to -/

theorem context_eq {m : Render η σ α} (h : Render.Restores m) {result : Except Error α}
    (hm : m scene = (result, scene')) : scene'.context = scene.context := by
  rw [← h scene, hm]

theorem restores_renderAll (r : Renderer η σ) (limit : Nat) (ops : List Op) :
    Render.Restores (Op.renderAll r (r.execute limit) ops) :=
  r.stepsIn_restores.renderAll Render.closed_restores
    (r.stepsIn_restores.execute Render.closed_restores limit) ops

theorem Settles.context {op : Op} {result : Except Error String}
    (h : r.Settles bound (fun enter => Op.render r enter op) scene (result, scene')) :
    scene'.context = scene.context := by
  have hrestores := restores_renderAll r bound [op]
  simp only [Op.renderAll, pure_bind, String.append_empty, bind_pure] at hrestores
  exact context_eq hrestores (h bound (Nat.le_refl _))

section Reaches

variable {ops target : List Op} {there : Scene η σ}

/-- What opening sections and partials keeps true of a context is true of all that are come to. -/
theorem Reaches.context (I : Context → Prop)
    (hpush : ∀ (scene : Scene η σ) path v frame, I scene.context →
      (r.resolve path scene).1 = .ok v → frame ∈ v.frames → I (scene.context.push frame))
    (hdeeper : ∀ c, I c → c.partialDepth < maxPartialDepth →
      I { c with partialDepth := c.partialDepth + 1 })
    (h : r.Reaches ops scene target there) (hscene : I scene.context) : I there.context := by
  induction h with
  | here => exact hscene
  | next hop _ ih => exact ih (hop.context ▸ hscene)
  | @block _ body _ _ _ _ _ done frame left _ bound scene scene₁ scene₂ _ hresolve _ hframes hdone
      _ ih =>
    have hcontext : scene₂.context = scene.context :=
      (context_eq (Render.closed_restores.eachFrame (restores_renderAll r bound body) done)
        (hdone bound (Nat.le_refl _))).trans
        (context_eq (r.stepsIn_restores.resolve _) hresolve)
    refine ih ?_
    rw [Scene.push, hcontext]
    exact hpush scene _ _ frame hscene (congrArg Prod.fst hresolve) (by simp [hframes])
  | inverted hresolve _ _ ih =>
    exact ih (context_eq (r.stepsIn_restores.resolve _) hresolve ▸ hscene)
  | inlined hdepth _ ih => exact ih (hdeeper _ hscene hdepth)
  | partialRef hdepth hpartial _ ih =>
    refine ih (context_eq (r.stepsIn_restores.partialTemplate _) hpartial ▸ ?_)
    exact hdeeper _ hscene hdepth

theorem Reaches.depth_le (h : r.Reaches ops scene target there)
    (hdepth : scene.context.partialDepth ≤ maxPartialDepth) :
    there.context.partialDepth ≤ maxPartialDepth :=
  h.context (·.partialDepth ≤ maxPartialDepth) (fun _ _ _ _ h _ _ => h) (fun _ _ hlt => hlt) hdepth

theorem callsNone_of_values (hhost : r.host.LambdaFree)
    (hframes : ∀ frame ∈ scene.context.frames, frame.lambdaFree = true)
    (hglobals : Value.lambdaFreeFields scene.context.globals = true) : r.CallsNone ops scene := by
  refine .inr fun op rest there path lambda hreaches _ hv => ?_
  have hthere := hreaches.context
    (fun c => (∀ frame ∈ c.frames, frame.lambdaFree = true) ∧
      Value.lambdaFreeFields c.globals = true)
    (fun scene path v frame h hv hmem => by
      refine ⟨fun frame' hframe' => ?_, h.2⟩
      rcases List.mem_cons.1 hframe' with rfl | hframe'
      · exact Value.lambdaFree_of_mem_frames (lambdaFree_resolve hhost h.1 h.2 hv) hmem
      · exact h.1 frame' hframe')
    (fun _ h _ => h) ⟨hframes, hglobals⟩
  cases lambdaFree_resolve hhost hthere.1 hthere.2 hv

end Reaches

/-! ## Failing where an instruction fails -/

section Fails

variable {ops target : List Op} {there : Scene η σ} {error : Error}

def Fails (r : Renderer η σ) (ops : List Op) (scene : Scene η σ) (error : Error) : Prop :=
  ∃ bound scene', r.Settles bound (fun enter => Op.renderAll r enter ops) scene
    (.error error, scene')

theorem fails_of_stuck {op : Op} {name : String} (hname : op.partialName? = some name)
    (hdepth : scene.context.partialDepth = maxPartialDepth) :
    r.Fails (op :: ops) scene (.partialRecursion name maxPartialDepth) := by
  have hfull (m : Render η σ String) : insidePartial name m scene =
      (.error (.partialRecursion name maxPartialDepth), scene) := by
    simp only [insidePartial, if_neg (Nat.not_lt.2 (Nat.le_of_eq hdepth.symm))]
  refine ⟨0, scene, Settles.cons_error fun limit _ => ?_⟩
  cases op with
  | partialRef name' indent =>
    obtain rfl : name' = name := Option.some.inj hname
    simp only [Op.render]
    exact hfull _
  | inlined name' indent body =>
    obtain rfl : name' = name := Option.some.inj hname
    simp only [Op.render]
    exact hfull _
  | _ => cases hname

theorem Reaches.fails (h : r.Reaches ops scene target there) (hfails : r.Fails target there error) :
    r.Fails ops scene error := by
  induction h with
  | here => exact hfails
  | @next _ _ _ _ bound _ _ _ hop _ ih =>
    obtain ⟨bound', failed, hrest⟩ := ih hfails
    refine ⟨max bound bound', failed, ?_⟩
    simp only [Op.renderAll]
    exact (hop.mono (Nat.le_max_left ..)).bind (hrest.mono (Nat.le_max_right ..)).bind_error
  | @block _ body _ _ _ _ _ done frame left _ bound _ scene₁ _ _ hresolve hv hframes hdone _ ih =>
    obtain ⟨bound', failed, hbody⟩ := ih hfails
    have heach : r.Settles (max bound bound')
        (fun enter => eachFrame (Op.renderAll r enter body) (done ++ frame :: left)) scene₁
        (.error error, { failed with context := failed.context.pop }) := by
      simp only [eachFrame_append, eachFrame]
      exact (hdone.mono (Nat.le_max_left ..)).bind
        (hbody.mono (Nat.le_max_right ..)).withFrame.bind_error.bind_error
    exact ⟨_, _, (Settles.block hresolve hv (hframes ▸ heach)).cons_error⟩
  | inverted hresolve hv _ ih =>
    obtain ⟨bound, failed, hbody⟩ := ih hfails
    exact ⟨bound, failed, (Settles.inverted hresolve hv hbody).cons_error⟩
  | inlined hdepth _ ih =>
    obtain ⟨bound, failed, hbody⟩ := ih hfails
    refine ⟨bound, failed.shallower, Settles.cons_error ?_⟩
    simp only [Op.render]
    exact hbody.bind_error.insidePartial hdepth
  | partialRef hdepth hpartial _ ih =>
    obtain ⟨bound, failed, hbody⟩ := ih hfails
    refine ⟨bound + 1, failed.shallower, Settles.cons_error ?_⟩
    simp only [Op.render]
    exact .insidePartial hdepth (.bind (fun _ _ => hpartial) hbody.enter.bind_error)

end Fails

/-! ## Ending -/

/-- A step settles. Where the rendering is `Sound`, it fails for the depth of partials only where it
is stuck at the partial. -/
def Ends (r : Renderer η σ) (bound : Nat) (step : (List Op → Render η σ String) → Render η σ α)
    (Sound : Prop) (Stuck : String → Prop) (scene : Scene η σ) : Prop :=
  ∃ answer scene', r.Settles bound step scene (answer, scene') ∧
    (Sound → ∀ error, answer = .error error → error.OfNesting →
      ∃ name, error = .partialRecursion name maxPartialDepth ∧ Stuck name)

variable {Sound : Prop}

namespace Ends

variable {Stuck Stuck' : String → Prop}

section Steps

variable {step : (List Op → Render η σ String) → Render η σ α}
  {next : (List Op → Render η σ String) → α → Render η σ β}

theorem of_const {m : Render η σ α}
    (h : Sound → ∀ error, (m scene).1 = .error error → ¬ error.OfNesting) :
    r.Ends bound (fun _ => m) Sound Stuck scene :=
  ⟨_, _, fun _ _ => rfl, fun hsound error herror hnesting =>
    absurd hnesting (h hsound error herror)⟩

theorem pure (a : α) : r.Ends bound (fun _ => Pure.pure a) Sound Stuck scene :=
  of_const fun _ error h => by cases h

theorem congr {step' : (List Op → Render η σ String) → Render η σ α}
    (heq : ∀ enter, step enter = step' enter) (h : r.Ends bound step' Sound Stuck scene) :
    r.Ends bound step Sound Stuck scene := by
  rwa [funext heq]

theorem imp (h : r.Ends bound step Sound Stuck scene) (himp : ∀ name, Stuck name → Stuck' name) :
    r.Ends bound step Sound Stuck' scene := by
  obtain ⟨answer, scene', hsettles, hstuck⟩ := h
  refine ⟨answer, scene', hsettles, fun hsound error herror hnesting => ?_⟩
  obtain ⟨name, hname, hstuck⟩ := hstuck hsound error herror hnesting
  exact ⟨name, hname, himp name hstuck⟩

theorem bind (h : r.Ends bound step Sound Stuck scene)
    (h' : ∀ a scene', r.Settles bound step scene (.ok a, scene') →
      r.Ends bound (fun enter => next enter a) Sound Stuck scene') :
    r.Ends bound (fun enter => step enter >>= next enter) Sound Stuck scene := by
  obtain ⟨answer, scene', hsettles, hstuck⟩ := h
  cases answer with
  | error error =>
    exact ⟨.error error, scene', hsettles.bind_error, fun hsound error' herror hnesting =>
      hstuck hsound error' (by cases herror; rfl) hnesting⟩
  | ok a =>
    obtain ⟨answer', scene'', hsettles', hstuck'⟩ := h' a scene' hsettles
    exact ⟨answer', scene'', hsettles.bind hsettles', hstuck'⟩

end Steps

variable {step : (List Op → Render η σ String) → Render η σ String}

theorem withFrame {frame : Value} (h : r.Ends bound step Sound Stuck (scene.push frame)) :
    r.Ends bound (fun enter => Renderer.withFrame frame (step enter)) Sound Stuck scene := by
  obtain ⟨answer, scene', hsettles, hstuck⟩ := h
  exact ⟨answer, _, hsettles.withFrame, hstuck⟩

theorem insidePartial {name : String}
    (hdepth : Sound → scene.context.partialDepth ≤ maxPartialDepth)
    (hstuck : scene.context.partialDepth = maxPartialDepth → Stuck name)
    (h : scene.context.partialDepth < maxPartialDepth →
      r.Ends bound step Sound Stuck scene.deeper) :
    r.Ends bound (fun enter => Renderer.insidePartial name (step enter)) Sound Stuck scene := by
  by_cases hlt : scene.context.partialDepth < maxPartialDepth
  · obtain ⟨answer, scene', hsettles, hstuck⟩ := h hlt
    exact ⟨answer, _, hsettles.insidePartial hlt, hstuck⟩
  · refine ⟨.error (.partialRecursion name maxPartialDepth), scene, fun limit _ => ?_, ?_⟩
    · simp only [Renderer.insidePartial, if_neg hlt]
    · rintro hsound _ ⟨⟩ -
      exact ⟨name, rfl, hstuck (Nat.le_antisymm (hdepth hsound) (Nat.le_of_not_lt hlt))⟩

theorem enter {ops : List Op}
    (h : r.Ends bound (fun enter => Op.renderAll r enter ops) Sound Stuck scene) :
    r.Ends (bound + 1) (fun enter => enter ops) Sound Stuck scene := by
  obtain ⟨answer, scene', hsettles, hstuck⟩ := h
  exact ⟨answer, scene', hsettles.enter, hstuck⟩

/-- What is rendered for each frame ends when it ends for a frame after those before it. -/
theorem eachFrame {frames : List Value}
    (h : ∀ done frame left text scene', frames = done ++ frame :: left →
      r.Settles bound (fun enter => Renderer.eachFrame (step enter) done) scene
        (.ok text, scene') →
      r.Ends bound step Sound Stuck (scene'.push frame)) :
    r.Ends bound (fun enter => Renderer.eachFrame (step enter) frames) Sound Stuck scene := by
  suffices hleft : ∀ left done text scene', frames = done ++ left →
      r.Settles bound (fun enter => Renderer.eachFrame (step enter) done) scene
        (.ok text, scene') →
      r.Ends bound (fun enter => Renderer.eachFrame (step enter) left) Sound Stuck scene' from
    hleft frames [] "" scene rfl fun _ _ => rfl
  intro left
  induction left with
  | nil => exact fun _ _ _ _ _ => .pure ""
  | cons frame left ih =>
    intro done text scene' hframes hdone
    simp only [Renderer.eachFrame]
    refine (h done frame left text scene' hframes hdone).withFrame.bind ?_
    intro first scene'' hfirst
    refine (ih (done ++ [frame]) (text ++ first) scene'' (by simp [hframes]) ?_).bind
      fun _ _ _ => .pure _
    simp only [eachFrame_append, eachFrame_singleton]
    exact hdone.bind (hfirst.bind fun _ _ => rfl)

end Ends

/-! ## Rendering ends -/

theorem resolve_error {path : KeyPath} {error : Error}
    (h : (r.resolve path scene).1 = .error error) : ¬ error.OfNesting := by
  replace h : (scene.context.resolve r.host path scene.host).1 = .error error := h
  rw [Context.resolve] at h
  split at h
  · cases h
  · split at h
    · cases h
      exact id
    · cases h

theorem Ends.resolve {path : KeyPath} {Stuck : String → Prop}
    {next : (List Op → Render η σ String) → Value → Render η σ α}
    (h : ∀ v scene₁, r.resolve path scene = (.ok v, scene₁) → scene₁.context = scene.context →
      r.Ends bound (fun enter => next enter v) Sound Stuck scene₁) :
    r.Ends bound (fun enter => r.resolve path >>= next enter) Sound Stuck scene := by
  refine Ends.bind (.of_const fun _ _ => resolve_error) fun v scene₁ hv => ?_
  have hresolve : r.resolve path scene = (.ok v, scene₁) := hv bound (Nat.le_refl _)
  exact h v scene₁ hresolve (context_eq (r.stepsIn_restores.resolve path) hresolve)

section Ending

variable {ops : List Op}

theorem CallsNone.disabled {op : Op} (h : r.CallsNone (op :: ops) scene) {path : KeyPath}
    (hpath : op.path? = some path) {v : Value} {scene₁ : Scene η σ}
    (hresolve : r.resolve path scene = (.ok v, scene₁)) (lambda : Lambda)
    (hv : v = .lambda lambda) : r.options.disableLambdas = true := by
  rcases h with h | h
  · exact h
  · refine absurd ?_ (h op ops scene path lambda .here hpath)
    rw [hresolve, hv]

theorem interpolate_eq {v : Value}
    (hv : ∀ lambda, v = .lambda lambda → r.options.disableLambdas = true) :
    ∃ text, ∀ enter, r.interpolate enter v = Pure.pure text := by
  cases v with
  | lambda lambda => exact ⟨"", fun enter => if_pos (hv lambda rfl)⟩
  | _ => exact ⟨_, fun enter => rfl⟩

/-- At most `left` more partials may be opened, and no lambda is called. -/
structure Ready (r : Renderer η σ) (Sound : Prop) (left : Nat) (ops : List Op)
    (scene : Scene η σ) : Prop where
  depth : Sound → scene.context.partialDepth ≤ maxPartialDepth
  left : maxPartialDepth ≤ scene.context.partialDepth + left
  callsNone : r.CallsNone ops scene

namespace Ready

variable {left left' : Nat} {target : List Op} {there : Scene η σ}

theorem mono (h : r.Ready Sound left ops scene) (hle : left ≤ left') :
    r.Ready Sound left' ops scene :=
  ⟨h.depth, Nat.le_trans h.left (Nat.add_le_add_left hle _), h.callsNone⟩

theorem of_reaches (h : r.Ready Sound left ops scene)
    (hdepth : there.context.partialDepth = scene.context.partialDepth)
    (hreaches : ∀ {ops' scene'}, r.Reaches target there ops' scene' →
      r.Reaches ops scene ops' scene') : r.Ready Sound left target there :=
  ⟨hdepth ▸ h.depth, hdepth ▸ h.left, h.callsNone.of_reaches hreaches⟩

theorem deeper (h : r.Ready Sound left ops scene)
    (hlt : scene.context.partialDepth < maxPartialDepth)
    (hdepth : there.context.partialDepth = scene.context.partialDepth + 1)
    (hreaches : ∀ {ops' scene'}, r.Reaches target there ops' scene' →
      r.Reaches ops scene ops' scene') : ∃ left' < left, r.Ready Sound left' target there := by
  have hleft := h.left
  exact ⟨left - 1, by omega, fun _ => by omega, by omega, h.callsNone.of_reaches hreaches⟩

end Ready

section Sound

variable (hresolver : Sound → ∀ name store error,
    (r.resolver.partialTemplate name store).1 = .error error → ¬ error.OfNesting)
include hresolver

theorem renderAll_ends
    (henter : ∀ left < bound, ∀ ops scene, r.Ready Sound left ops scene →
      r.Ends bound (fun enter => enter ops) Sound (r.Stuck ops scene) scene) (ops : List Op) :
    ∀ scene, r.Ready Sound bound ops scene →
      r.Ends bound (fun enter => Op.renderAll r enter ops) Sound (r.Stuck ops scene) scene := by
  have hcons : ∀ {op ops},
      (∀ scene, r.Ready Sound bound (op :: ops) scene →
        r.Ends bound (fun enter => Op.render r enter op) Sound (r.Stuck (op :: ops) scene) scene) →
      (∀ scene, r.Ready Sound bound ops scene →
        r.Ends bound (fun enter => Op.renderAll r enter ops) Sound (r.Stuck ops scene) scene) →
      ∀ scene, r.Ready Sound bound (op :: ops) scene →
        r.Ends bound (fun enter => Op.renderAll r enter (op :: ops)) Sound
          (r.Stuck (op :: ops) scene) scene := by
    intro op ops hop hops scene hready
    simp only [Op.renderAll]
    refine (hop scene hready).bind fun first scene' hfirst => ?_
    have hrest := hready.of_reaches (congrArg Context.partialDepth hfirst.context) (.next hfirst)
    exact ((hops scene' hrest).imp fun _ h => h.of_reaches (.next hfirst)).bind fun _ _ _ =>
      .pure _
  induction ops using Op.listInduction with
  | nil =>
    intro scene _
    simp only [Op.renderAll]
    exact .pure ""
  | text s ops ih =>
    refine hcons (fun scene _ => ?_) ih
    simp only [Op.render]
    exact .pure s
  | interpolation path escaped ops ih =>
    refine hcons (fun scene hready => ?_) ih
    simp only [Op.render]
    refine .resolve fun v scene₁ hresolve _ => ?_
    obtain ⟨text, htext⟩ := interpolate_eq (hready.callsNone.disabled rfl hresolve)
    simp only [htext, pure_bind]
    exact .pure _
  | block path body raw delimiters ops ihbody ih =>
    refine hcons (fun scene hready => ?_) ih
    simp only [Op.render]
    refine .resolve fun v scene₁ hresolve hcontext => ?_
    have hv := hready.callsNone.disabled rfl hresolve
    refine .congr (fun enter => sectionText_eq_eachFrame enter _ raw delimiters hv) (.eachFrame ?_)
    intro done frame left text scene₂ hframes hdone
    have hreaches {ops' scene'} (h : r.Reaches body (scene₂.push frame) ops' scene') :
        r.Reaches (.block path body raw delimiters :: ops) scene ops' scene' :=
      .block hresolve hv hframes hdone h
    have hcontext' : scene₂.context = scene.context :=
      (context_eq (Render.closed_restores.eachFrame (restores_renderAll r bound body) done)
        (hdone bound (Nat.le_refl _))).trans hcontext
    have hdepth : (scene₂.push frame).context.partialDepth = scene.context.partialDepth :=
      congrArg (·.partialDepth) hcontext'
    exact (ihbody _ (hready.of_reaches hdepth hreaches)).imp fun _ h => h.of_reaches hreaches
  | inverted path body ops ihbody ih =>
    refine hcons (fun scene hready => ?_) ih
    simp only [Op.render]
    refine .resolve fun v scene₁ hresolve hcontext => ?_
    cases hv : v.isTruthy with
    | true => exact .pure ""
    | false =>
      have hbody := hready.of_reaches (congrArg Context.partialDepth hcontext)
        (.inverted hresolve hv)
      exact (ihbody _ hbody).imp fun _ h => h.of_reaches (.inverted hresolve hv)
  | partialRef name indent ops ih =>
    refine hcons (fun scene hready => ?_) ih
    simp only [Op.render]
    refine .insidePartial hready.depth (fun hdepth => ⟨_, _, _, .here, rfl, hdepth⟩) fun hlt => ?_
    refine Ends.bind (.of_const fun hsound error => hresolver hsound name _ error)
      fun found scene₁ hfound => ?_
    replace hfound := hfound bound (Nat.le_refl _)
    cases found with
    | none => exact .pure ""
    | some template =>
      have hcontext := context_eq (r.stepsIn_restores.partialTemplate name) hfound
      obtain ⟨left, hleft, hentered⟩ := hready.deeper hlt (congrArg Context.partialDepth hcontext)
        (.partialRef hlt hfound)
      exact ((henter left hleft _ _ hentered).imp fun _ h =>
        h.of_reaches (.partialRef hlt hfound)).bind fun _ _ _ => .pure _
  | inlined name indent body ops ihbody ih =>
    refine hcons (fun scene hready => ?_) ih
    simp only [Op.render]
    refine .insidePartial hready.depth (fun hdepth => ⟨_, _, _, .here, rfl, hdepth⟩) fun hlt => ?_
    obtain ⟨left, hleft, hentered⟩ := hready.deeper hlt rfl (.inlined hlt)
    exact ((ihbody _ (hentered.mono (Nat.le_of_lt hleft))).imp fun _ h =>
      h.of_reaches (.inlined hlt)).bind fun _ _ _ => .pure _

/-- Rendering ends within as many templates as partials may still be opened. -/
theorem ends (left : Nat) : ∀ ops scene, r.Ready Sound left ops scene →
    r.Ends left (fun enter => Op.renderAll r enter ops) Sound (r.Stuck ops scene) scene := by
  induction left with
  | zero => exact renderAll_ends hresolver fun left hleft => absurd hleft (Nat.not_lt_zero left)
  | succ left ih =>
    refine renderAll_ends hresolver fun left' hleft ops scene hready => ?_
    exact (ih ops scene (hready.mono (Nat.le_of_lt_succ hleft))).enter

end Sound

/-- Where no lambda is called, the limit makes no difference, as long as it leaves room for all the
partials that may be open. -/
theorem execute_eq_of_callsNone (hcallsNone : r.CallsNone ops scene) {limit limit' : Nat}
    (hlimit : maxPartialDepth < limit) (hlimit' : maxPartialDepth < limit') :
    r.execute limit ops scene = r.execute limit' ops scene := by
  have hready : r.Ready False maxPartialDepth ops scene :=
    ⟨False.elim, Nat.le_add_left .., hcallsNone⟩
  obtain ⟨answer, scene', hsettles, -⟩ := ends False.elim _ ops scene hready
  exact (hsettles.enter limit hlimit).trans (hsettles.enter limit' hlimit').symm

/-- Rendering gives the same answer at every limit that leaves room for the partials that may still
be opened. It fails for their depth exactly when it comes to an instruction that opens a partial
while no more may be opened. -/
theorem execute_ends (hresolver : ∀ name store error,
      (r.resolver.partialTemplate name store).1 = .error error → ¬ error.OfNesting)
    (hdepth : scene.context.partialDepth ≤ maxPartialDepth) (hcallsNone : r.CallsNone ops scene) :
    ∃ answer scene',
      (∀ limit, maxPartialDepth < scene.context.partialDepth + limit →
        r.execute limit ops scene = (answer, scene')) ∧
      answer ≠ .error .expansionLimit ∧
      ∀ name depth, answer = .error (.partialRecursion name depth) ↔
        depth = maxPartialDepth ∧ r.Stuck ops scene name := by
  have hready : r.Ready True (maxPartialDepth - scene.context.partialDepth) ops scene :=
    ⟨fun _ => hdepth, by omega, hcallsNone⟩
  obtain ⟨answer, scene', hsettles, hstuck⟩ := ends (fun _ => hresolver) _ ops scene hready
  replace hstuck := hstuck trivial
  refine ⟨answer, scene', fun limit hlimit => ?_, ?_, fun name depth => ⟨?_, ?_⟩⟩
  · exact hsettles.enter limit (by omega)
  · intro hanswer
    obtain ⟨name, hname, -⟩ := hstuck _ hanswer trivial
    cases hname
  · intro hanswer
    obtain ⟨name', hname, hstuck⟩ := hstuck _ hanswer trivial
    cases hname
    exact ⟨rfl, hstuck⟩
  · rintro ⟨rfl, op, rest, there, hreaches, hname, hdepth⟩
    obtain ⟨bound, failed, hfails⟩ := hreaches.fails (fails_of_stuck hname hdepth)
    have hanswer := (hsettles (max (maxPartialDepth - scene.context.partialDepth) bound)
      (Nat.le_max_left ..)).symm.trans (hfails _ (Nat.le_max_right ..))
    exact congrArg Prod.fst hanswer

end Ending

end Renderer

end Mustache
