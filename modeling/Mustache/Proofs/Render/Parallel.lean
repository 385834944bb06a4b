import Mustache.Proofs.Render.Closure
import Mustache.Proofs.Render.Lookup

/-!
# Mustache.Proofs.Render.Parallel

Renderings that are followed step by step: one alone, and two side by side.

`Renderer.Keeps` says that the single steps of a renderer keep something true of what the host
keeps and of the store; then whole renderings keep it true (`Renderer.Keeps.execute`).

In a `Pairing`, two renderings with hosts and stores of their own take their steps side by side, in
contexts and with values that may differ in what the pairing allows, up to a point from which
nothing more is known of them. Until then they give results that are related or the same error
(`Pairing.Alike`). If the single steps are alike, whole renderings of the same instructions are
(`Steps.Alike.execute`). The combinators before that put different instructions side by side too.
-/

namespace Mustache

variable {η σ η' σ' α β γ δ : Type}

/-! ## What is kept true -/

/-- The step keeps `P` true of what the host keeps and of the store. -/
def Render.Keeps (P : η → σ → Prop) (m : Render η σ α) : Prop :=
  ∀ scene, P scene.host scene.store → P (m scene).2.host (m scene).2.store

namespace Render.Keeps

variable {P : η → σ → Prop}

theorem pure (a : α) : Render.Keeps P (Pure.pure a : Render η σ α) := fun _ h => h

theorem throw (e : Error) : Render.Keeps P (MonadExcept.throw e : Render η σ α) := fun _ h => h

theorem bind {m : Render η σ α} {f : α → Render η σ β} (h : Render.Keeps P m)
    (hf : ∀ a, Render.Keeps P (f a)) : Render.Keeps P (m >>= f) := by
  intro scene hscene
  have hm := h scene hscene
  rw [bind_apply]
  rcases hresult : m scene with ⟨e | a, scene'⟩ <;> rw [hresult] at hm
  · exact hm
  · exact hf a scene' hm

theorem withFrame {m : Render η σ String} (frame : Value) (h : Render.Keeps P m) :
    Render.Keeps P (Renderer.withFrame frame m) :=
  fun scene hscene => h { scene with context := scene.context.push frame } hscene

theorem insidePartial {m : Render η σ String} (name : String) (h : Render.Keeps P m) :
    Render.Keeps P (Renderer.insidePartial name m) := by
  intro scene hscene
  simp only [Renderer.insidePartial]
  split
  · exact h { scene with context := { scene.context with
      partialDepth := scene.context.partialDepth + 1 } } hscene
  · exact hscene

theorem closed (P : η → σ → Prop) : Render.Closed fun {_} m => Render.Keeps P m where
  pure := .pure
  throw := .throw _
  bind := .bind
  withFrame frame h := h.withFrame frame
  insidePartial name h := h.insidePartial name

end Render.Keeps

/-- The single steps of the renderer keep `P` true. -/
abbrev Renderer.Keeps (P : η → σ → Prop) (r : Renderer η σ) : Prop :=
  r.StepsIn fun {_} m => Render.Keeps P m

theorem Renderer.Keeps.execute {P : η → σ → Prop} {r : Renderer η σ} (hr : r.Keeps P)
    (limit : Nat) (ops : List Op) : Render.Keeps P (r.execute limit ops) :=
  Renderer.StepsIn.execute hr (Render.Keeps.closed P) limit ops

/-! ## Side by side -/

def failure : Except Error α → Option Error
  | .error error => some error
  | .ok _ => none

theorem eq_of_failure {answer : Except Error α} {error : Error} (h : failure answer = some error) :
    answer = .error error := by
  cases answer with
  | error e => exact congrArg _ (Option.some.inj h)
  | ok a => cases h

/-- What is known of two renderings with hosts and stores of their own. -/
structure Pairing (η σ η' σ' : Type) where
  contexts : Context → Context → Prop
  values : ValueRelation
  related : η → σ → η' → σ' → Prop
  /-- From when on nothing more is known, by how the first failed, if it did, and by what the
  second host keeps. -/
  lost : Option Error → η' → Prop
  /-- The failures of the second after which nothing more is known. -/
  excused : Error → Prop
  /-- The texts of lambdas that both can compile. -/
  known : String → Prop
  push {c c' : Context} {v v' : Value} :
    contexts c c' → values.holds v v' → contexts (c.push v) (c'.push v')
  deeper {c c' : Context} : contexts c c' → c'.partialDepth < maxPartialDepth →
    c.partialDepth < maxPartialDepth ∧ contexts { c with partialDepth := c.partialDepth + 1 }
      { c' with partialDepth := c'.partialDepth + 1 }
  deepest {c c' : Context} : contexts c c' → ¬ c'.partialDepth < maxPartialDepth →
    ¬ c.partialDepth < maxPartialDepth ∨ ∀ name, excused (.partialRecursion name maxPartialDepth)
  lost_of_none {kept : η'} (error : Option Error) : lost none kept → lost error kept

/-- Two renderings in the same contexts, whose failures all count. -/
def Pairing.sameContexts (related : η → σ → η' → σ' → Prop) (lost : η' → Prop)
    (known : String → Prop) : Pairing η σ η' σ' where
  contexts := Eq
  values := .same
  related := related
  lost _ := lost
  excused _ := False
  known := known
  push := by
    rintro _ _ _ _ rfl rfl
    rfl
  deeper := by
    rintro _ _ rfl hdepth
    exact ⟨hdepth, rfl⟩
  deepest := by
    rintro _ _ rfl hdepth
    exact .inl hdepth
  lost_of_none _ := id

variable {p : Pairing η σ η' σ'}

/-- In contexts that are taken side by side, the two steps give answers that are related, leave the
contexts as they were, and keep what is related so, unless nothing more is known. -/
def Pairing.Alike (p : Pairing η σ η' σ') (R : α → β → Prop) (m : Render η σ α)
    (m' : Render η' σ' β) : Prop :=
  ∀ scene scene', p.contexts scene.context scene'.context →
    p.related scene.host scene.store scene'.host scene'.store →
    p.lost (failure (m scene).1) (m' scene').2.host ∨
    (∃ error, (m' scene').1 = .error error ∧ p.excused error) ∨
    Matches R (m scene).1 (m' scene').1 ∧ (m scene).2.context = scene.context ∧
      (m' scene').2.context = scene'.context ∧
      p.related (m scene).2.host (m scene).2.store (m' scene').2.host (m' scene').2.store

abbrev Pairing.Loses (p : Pairing η σ η' σ') (m : Render η' σ' β) : Prop :=
  ∀ error, Render.Keeps (fun kept _ => p.lost error kept) m

theorem Pairing.closed_loses (p : Pairing η σ η' σ') :
    Render.Closed fun {_} m => p.Loses m where
  pure _ _ := .pure _
  throw _ := .throw _
  bind h hf error := (h error).bind fun a => hf a error
  withFrame frame h error := (h error).withFrame frame
  insidePartial name h error := (h error).insidePartial name

/-- The stores are the same, and the hosts do not say which. -/
def Pairing.SameStores (p : Pairing η σ η' σ) : Prop :=
  ∀ {kept store kept' store'}, p.related kept store kept' store' →
    store = store' ∧ ∀ next, p.related kept next kept' next

theorem Pairing.loses_of_const {p : Pairing η σ η' σ'}
    (h : ∀ error kept kept', p.lost error kept → p.lost error kept') (s : Steps η' σ') :
    s.In fun {_} m => p.Loses m where
  resolve _ _ _ := h _ _ _
  call _ _ _ _ := h _ _ _
  partialTemplate _ _ _ := h _ _ _
  dynamicTemplate _ _ _ _ := h _ _ _

namespace Pairing.Alike

variable {R : α → β → Prop} {S : γ → δ → Prop}

theorem of_scenes {m : Render η σ α} {m' : Render η' σ' β}
    (h : ∀ c c' kept kept' store store', p.contexts c c' → p.related kept store kept' store' →
      let result := m ⟨c, kept, store⟩
      let result' := m' ⟨c', kept', store'⟩
      p.lost (failure result.1) result'.2.host ∨
      (∃ error, result'.1 = .error error ∧ p.excused error) ∨
      Matches R result.1 result'.1 ∧ result.2.context = c ∧ result'.2.context = c' ∧
        p.related result.2.host result.2.store result'.2.host result'.2.store) :
    p.Alike R m m' :=
  fun ⟨c, kept, store⟩ ⟨c', kept', store'⟩ => h c c' kept kept' store store'

theorem pure {a : α} {b : β} (h : R a b) :
    p.Alike R (Pure.pure a : Render η σ α) (Pure.pure b) :=
  fun _ _ _ hrelated => .inr (.inr ⟨.ok h, rfl, rfl, hrelated⟩)

theorem throw (e : Error) :
    p.Alike R (MonadExcept.throw e : Render η σ α) (MonadExcept.throw e) :=
  fun _ _ _ hrelated => .inr (.inr ⟨.error e, rfl, rfl, hrelated⟩)

theorem bind {m : Render η σ α} {m' : Render η' σ' β} {f : α → Render η σ γ}
    {f' : β → Render η' σ' δ} (h : p.Alike R m m') (hf : ∀ a b, R a b → p.Alike S (f a) (f' b))
    (hlost : ∀ b, p.Loses (f' b)) : p.Alike S (m >>= f) (m' >>= f') := by
  intro scene scene' hcontexts hrelated
  have hm := h scene scene' hcontexts hrelated
  rw [bind_apply, bind_apply]
  rcases hresult : m scene with ⟨e | a, after⟩ <;>
    rcases hresult' : m' scene' with ⟨e' | b, after'⟩ <;> rw [hresult, hresult'] at hm
  · obtain hm | ⟨_, ⟨⟩, hexcused⟩ | ⟨hmatches, hm⟩ := hm
    · exact .inl hm
    · exact .inr (.inl ⟨e', rfl, hexcused⟩)
    · cases hmatches
      exact .inr (.inr ⟨.error _, hm⟩)
  · -- only the second goes on, from where nothing more is known
    obtain hm | ⟨_, ⟨⟩, _⟩ | ⟨⟨⟩, _⟩ := hm
    exact .inl (hlost b (some e) after' hm)
  · -- only the first goes on
    obtain hm | ⟨_, ⟨⟩, hexcused⟩ | ⟨⟨⟩, _⟩ := hm
    · exact .inl (p.lost_of_none _ hm)
    · exact .inr (.inl ⟨e', rfl, hexcused⟩)
  · obtain hm | ⟨_, ⟨⟩, _⟩ | ⟨hmatches, hcontext, hcontext', hrelated'⟩ := hm
    · exact .inl (p.lost_of_none _ (hlost b none after' hm))
    · cases hmatches with
      | ok hab =>
        have hnext := hf a b hab after after'
        rw [show after.context = scene.context from hcontext,
          show after'.context = scene'.context from hcontext'] at hnext
        exact hnext hcontexts hrelated'

theorem append {m n : Render η σ String} {m' n' : Render η' σ' String} (hm : p.Alike Eq m m')
    (hn : p.Alike Eq n n') (hlost : p.Loses n') :
    p.Alike Eq
      (do
        let first ← m
        let rest ← n
        Pure.pure (first ++ rest))
      (do
        let first ← m'
        let rest ← n'
        Pure.pure (first ++ rest)) := by
  refine hm.bind (fun first _ hfirst => ?_) fun _ => p.closed_loses.bind hlost fun _ _ => .pure _
  subst hfirst
  refine hn.bind (fun rest _ hrest => ?_) fun _ _ => .pure _
  subst hrest
  exact .pure rfl

theorem map {m : Render η σ String} {m' : Render η' σ' String} (h : p.Alike Eq m m')
    {f f' : String → String} (hf : ∀ text, f text = f' text) :
    p.Alike Eq
      (do
        let text ← m
        Pure.pure (f text))
      (do
        let text ← m'
        Pure.pure (f' text)) := by
  refine h.bind (fun text _ htext => ?_) fun _ _ => .pure _
  subst htext
  exact .pure (hf text)

theorem withFrame {m : Render η σ String} {m' : Render η' σ' String} {frame frame' : Value}
    (hframe : p.values.holds frame frame') (h : p.Alike Eq m m') :
    p.Alike Eq (Renderer.withFrame frame m) (Renderer.withFrame frame' m') := by
  intro scene scene' hcontexts hrelated
  refine (h { scene with context := scene.context.push frame }
    { scene' with context := scene'.context.push frame' } (p.push hcontexts hframe)
    hrelated).imp_right (.imp_right ?_)
  rintro ⟨hmatches, hcontext, hcontext', hrelated'⟩
  exact ⟨hmatches, congrArg Context.pop hcontext, congrArg Context.pop hcontext', hrelated'⟩

theorem ofStores {operation : σ → Except Error α × σ} {operation' : σ' → Except Error β × σ'}
    (h : ∀ kept store kept' store', p.related kept store kept' store' →
      Matches R (operation store).1 (operation' store').1 ∧
        p.related kept (operation store).2 kept' (operation' store').2) :
    p.Alike R
      (fun scene => ((operation scene.store).1, { scene with store := (operation scene.store).2 }))
      (fun scene =>
        ((operation' scene.store).1, { scene with store := (operation' scene.store).2 })) := by
  intro scene scene' _ hrelated
  obtain ⟨hmatches, hrelated'⟩ := h _ _ _ _ hrelated
  exact .inr (.inr ⟨hmatches, rfl, rfl, hrelated'⟩)

section SameStores

variable {r : Renderer η σ} {r' : Renderer η' σ} {p : Pairing η σ η' σ} (hstores : p.SameStores)
  (hresolvers : r.resolver = r'.resolver)
include hstores hresolvers

theorem partialTemplate {name : String} :
    p.Alike (Option.Rel fun t t' => t.ops = t'.ops) (r.partialTemplate name)
      (r'.partialTemplate name) := by
  refine .ofStores fun kept store kept' store' hrelated => ?_
  obtain ⟨rfl, hnext⟩ := hstores hrelated
  rw [hresolvers]
  exact ⟨Matches.refl (fun found => Option.rel_refl (fun t => Eq.refl t.ops) found) _, hnext _⟩

theorem dynamicTemplate {source : String} {delimiters : Delimiters} :
    p.Alike (fun t t' => t.ops = t'.ops) (r.dynamicTemplate source delimiters)
      (r'.dynamicTemplate source delimiters) := by
  refine .ofStores fun kept store kept' store' hrelated => ?_
  obtain ⟨rfl, hnext⟩ := hstores hrelated
  rw [hresolvers]
  exact ⟨Matches.refl (fun t : Template => Eq.refl t.ops) _, hnext _⟩

end SameStores

theorem resolve {r : Renderer η σ} {r' : Renderer η' σ'}
    (hcontexts : ∀ c c', p.contexts c c' →
      c.Like p.values c' ∧ c.raiseOnMiss = c'.raiseOnMiss)
    (hhost : ∀ store store',
      r.host.Like p.values (fun kept kept' => p.related kept store kept' store') r'.host)
    (path : KeyPath) : p.Alike p.values.holds (r.resolve path) (r'.resolve path) := by
  intro scene scene' hcontext hrelated
  obtain ⟨hlike, hraise⟩ := hcontexts _ _ hcontext
  obtain ⟨hmatches, hrelated'⟩ := hlike.resolve (hhost _ _) hraise path hrelated
  exact .inr (.inr ⟨hmatches, rfl, rfl, hrelated'⟩)

theorem insidePartial {m : Render η σ String} {m' : Render η' σ' String} (name : String)
    (h : p.Alike Eq m m') :
    p.Alike Eq (Renderer.insidePartial name m) (Renderer.insidePartial name m') := by
  intro scene scene' hcontexts hrelated
  by_cases hdepth' : scene'.context.partialDepth < maxPartialDepth
  · obtain ⟨hdepth, hdeeper⟩ := p.deeper hcontexts hdepth'
    simp only [Renderer.insidePartial, if_pos hdepth, if_pos hdepth']
    refine (h { scene with context :=
      { scene.context with partialDepth := scene.context.partialDepth + 1 } } { scene' with
      context := { scene'.context with partialDepth := scene'.context.partialDepth + 1 } } hdeeper
      hrelated).imp_right (.imp_right ?_)
    rintro ⟨hmatches, hcontext, hcontext', hrelated'⟩
    exact ⟨hmatches, congrArg (fun c => { c with partialDepth := c.partialDepth - 1 }) hcontext,
      congrArg (fun c => { c with partialDepth := c.partialDepth - 1 }) hcontext', hrelated'⟩
  · simp only [Renderer.insidePartial, if_neg hdepth']
    obtain hdepth | hexcused := p.deepest hcontexts hdepth'
    · simp only [if_neg hdepth]
      exact .inr (.inr ⟨.error _, trivial, trivial, hrelated⟩)
    · exact .inr (.inl ⟨_, rfl, hexcused name⟩)

theorem eachFrame {m : Render η σ String} {m' : Render η' σ' String} (h : p.Alike Eq m m')
    (hlost : p.Loses m') {items items' : List Value}
    (hitems : List.Forall₂ p.values.holds items items') :
    p.Alike Eq (Renderer.eachFrame m items) (Renderer.eachFrame m' items') := by
  induction hitems with
  | nil => exact .pure rfl
  | cons hitem _ ih =>
    rw [Renderer.eachFrame, Renderer.eachFrame]
    exact (h.withFrame hitem).append ih (p.closed_loses.eachFrame hlost _)

end Pairing.Alike

/-- The single steps are alike. Lambdas are called only where related values are the same. -/
structure Steps.Alike (p : Pairing η σ η' σ') (s : Steps η σ) (s' : Steps η' σ') : Prop where
  options : s.renderer.options = s'.renderer.options
  same {v v' : Value} : s'.renderer.options.disableLambdas = false → p.values.holds v v' → v = v'
  loses : s'.In fun {_} m => p.Loses m
  resolve (path : KeyPath) : p.Alike p.values.holds (s.resolve path) (s'.resolve path)
  call (lambda : Lambda) (text : String) : s'.renderer.options.disableLambdas = false →
    p.Alike (fun v v' => v = v' ∧ ∀ source, v' = .text source → p.known source)
      (s.renderer.call lambda text) (s'.renderer.call lambda text)
  partialTemplate (name : String) :
    p.Alike (Option.Rel fun t t' => t.ops = t'.ops) (s.renderer.partialTemplate name)
      (s'.renderer.partialTemplate name)
  dynamicTemplate {source : String} (delimiters : Delimiters) (hknown : p.known source) :
    p.Alike (fun t t' => t.ops = t'.ops) (s.renderer.dynamicTemplate source delimiters)
      (s'.renderer.dynamicTemplate source delimiters)

abbrev Renderer.Alike (p : Pairing η σ η' σ') (r : Renderer η σ) (r' : Renderer η' σ') : Prop :=
  r.steps.Alike p r'.steps

section Alike

variable {s : Steps η σ} {s' : Steps η' σ'} {enter : List Op → Render η σ String}
  {enter' : List Op → Render η' σ' String}

theorem Steps.Alike.indented (hs : s.Alike p s') (indent text : String) :
    s.renderer.indented indent text = s'.renderer.indented indent text := by
  rw [Renderer.indented, Renderer.indented, hs.options]

variable (hs : s.Alike p s') (henter : ∀ ops, p.Alike Eq (enter ops) (enter' ops))
  (hlost : ∀ ops, p.Loses (enter' ops))
include hs henter hlost

theorem Steps.Alike.expand (henabled : s'.renderer.options.disableLambdas = false)
    (lambda : Lambda) (raw : String) (delimiters : Delimiters) :
    p.Alike Eq (s.renderer.expand enter lambda raw delimiters)
      (s'.renderer.expand enter' lambda raw delimiters) := by
  refine (hs.call lambda raw henabled).bind ?_ fun v => ?_
  · rintro v _ ⟨rfl, hknown⟩
    cases v with
    | text source =>
      refine (hs.dynamicTemplate delimiters (hknown source rfl)).bind ?_ fun t => hlost t.ops
      intro t t' hops
      rw [hops]
      exact henter t'.ops
    | _ => exact .pure rfl
  · cases v with
    | text source =>
      exact p.closed_loses.bind (hs.loses.dynamicTemplate source delimiters) fun t => hlost t.ops
    | _ => exact fun _ => .pure _

theorem Steps.Alike.interpolate {v v' : Value} (hv : p.values.holds v v') :
    p.Alike Eq (s.renderer.interpolate enter v) (s'.renderer.interpolate enter' v') := by
  cases hdisabled : s'.renderer.options.disableLambdas with
  | true =>
    have hplain (η σ : Type) (r : Renderer η σ) (enter : List Op → Render η σ String) (v : Value)
        (hr : r.options.disableLambdas = true) :
        r.interpolate enter v = Pure.pure v.interpolated := by
      cases v <;> simp [Renderer.interpolate, hr, Value.interpolated]
    rw [hplain _ _ _ _ _ (hs.options ▸ hdisabled), hplain _ _ _ _ _ hdisabled]
    exact .pure (p.values.interpolated hv)
  | false =>
    obtain rfl := hs.same hdisabled hv
    cases v with
    | lambda lambda =>
      simp only [Renderer.interpolate, hs.options, hdisabled, Bool.false_eq_true, if_false]
      exact hs.expand henter hlost hdisabled lambda _ _
    | _ => exact .pure rfl

theorem Steps.Alike.sectionText {v v' : Value} (hv : p.values.holds v v')
    {body : Render η σ String} {body' : Render η' σ' String} (hbody : p.Alike Eq body body')
    (hloses : p.Loses body') (raw : String) (delimiters : Delimiters) :
    p.Alike Eq (s.renderer.sectionText enter v body raw delimiters)
      (s'.renderer.sectionText enter' v' body' raw delimiters) := by
  by_cases hcalled : s'.renderer.options.disableLambdas = false ∧ ∃ lambda, v' = .lambda lambda
  · obtain ⟨hdisabled, lambda, rfl⟩ := hcalled
    obtain rfl := hs.same hdisabled hv
    simp only [Renderer.sectionText, hs.options, hdisabled, Bool.false_eq_true, if_false]
    exact hs.expand henter hlost hdisabled lambda _ _
  · have hnot' : ∀ lambda, v' = .lambda lambda → s'.renderer.options.disableLambdas = true :=
      fun lambda hv' => by simpa using fun hdisabled => hcalled ⟨hdisabled, lambda, hv'⟩
    have hnot : ∀ lambda, v = .lambda lambda → s.renderer.options.disableLambdas = true := by
      rintro lambda rfl
      rw [hs.options]
      by_contra hdisabled
      exact hdisabled (hnot' lambda (hs.same (by simpa using hdisabled) hv).symm)
    rw [Renderer.sectionText_eq_eachFrame _ _ _ _ hnot,
      Renderer.sectionText_eq_eachFrame _ _ _ _ hnot']
    exact hbody.eachFrame hloses (p.values.frames hv)

theorem Steps.Alike.interpolation (path : KeyPath) (escaped : Bool) :
    p.Alike Eq (s.render enter (.interpolation path escaped))
      (s'.render enter' (.interpolation path escaped)) := by
  rw [Steps.render, Steps.render]
  refine (hs.resolve path).bind (fun v v' hv => ?_) fun v' => ?_
  · exact (hs.interpolate henter hlost hv).map fun _ => rfl
  · exact p.closed_loses.bind (hs.loses.interpolate p.closed_loses hlost v') fun _ _ => .pure _

theorem Steps.Alike.block {body body' : List Op}
    (hbody : p.Alike Eq (s.renderAll enter body) (s'.renderAll enter' body')) (path : KeyPath)
    (raw : String) (delimiters : Delimiters) :
    p.Alike Eq (s.render enter (.block path body raw delimiters))
      (s'.render enter' (.block path body' raw delimiters)) := by
  have hloses := hs.loses.renderAll p.closed_loses hlost body'
  rw [Steps.render, Steps.render]
  refine (hs.resolve path).bind (fun v v' hv => ?_) fun v' => ?_
  · exact hs.sectionText henter hlost hv hbody hloses raw delimiters
  · exact hs.loses.sectionText p.closed_loses hlost hloses v' raw delimiters

omit henter in
theorem Steps.Alike.inverted {body body' : List Op}
    (hbody : p.Alike Eq (s.renderAll enter body) (s'.renderAll enter' body')) (path : KeyPath) :
    p.Alike Eq (s.render enter (.inverted path body))
      (s'.render enter' (.inverted path body')) := by
  rw [Steps.render, Steps.render]
  refine (hs.resolve path).bind (fun v v' hv => ?_) fun v' => ?_
  · rw [p.values.truthy hv]
    split
    · exact .pure rfl
    · exact hbody
  · split
    · exact fun _ => .pure _
    · exact hs.loses.renderAll p.closed_loses hlost body'

theorem Steps.Alike.partialRef (name indent : String) :
    p.Alike Eq (s.render enter (.partialRef name indent))
      (s'.render enter' (.partialRef name indent)) := by
  rw [Steps.render, Steps.render]
  refine .insidePartial name ((hs.partialTemplate name).bind (fun found found' hfound => ?_)
    fun found => ?_)
  · cases hfound with
    | none => exact .pure rfl
    | some hops =>
      dsimp only
      rw [hops]
      exact (henter _).map (hs.indented indent)
  · cases found with
    | none => exact fun _ => .pure _
    | some template => exact p.closed_loses.bind (hlost template.ops) fun _ _ => .pure _

omit henter hlost in
theorem Steps.Alike.inlined {body body' : List Op}
    (hbody : p.Alike Eq (s.renderAll enter body) (s'.renderAll enter' body'))
    (name indent : String) :
    p.Alike Eq (s.render enter (.inlined name indent body))
      (s'.render enter' (.inlined name indent body')) := by
  rw [Steps.render, Steps.render]
  exact .insidePartial name (hbody.map (hs.indented indent))

omit henter in
theorem Steps.Alike.cons {op op' : Op} {ops ops' : List Op}
    (hop : p.Alike Eq (s.render enter op) (s'.render enter' op'))
    (hops : p.Alike Eq (s.renderAll enter ops) (s'.renderAll enter' ops')) :
    p.Alike Eq (s.renderAll enter (op :: ops)) (s'.renderAll enter' (op' :: ops')) := by
  rw [Steps.renderAll, Steps.renderAll]
  exact hop.append hops (hs.loses.renderAll p.closed_loses hlost ops')

theorem Steps.Alike.renderAll (ops : List Op) :
    p.Alike Eq (s.renderAll enter ops) (s'.renderAll enter' ops) := by
  induction ops using Op.listInduction with
  | nil =>
    rw [Steps.renderAll, Steps.renderAll]
    exact .pure rfl
  | text text ops ih =>
    refine hs.cons hlost ?_ ih
    rw [Steps.render, Steps.render]
    exact .pure rfl
  | interpolation path escaped ops ih =>
    exact hs.cons hlost (hs.interpolation henter hlost path escaped) ih
  | block path body raw delimiters ops ihbody ih =>
    exact hs.cons hlost (hs.block henter hlost ihbody path raw delimiters) ih
  | inverted path body ops ihbody ih => exact hs.cons hlost (hs.inverted hlost ihbody path) ih
  | partialRef name indent ops ih =>
    exact hs.cons hlost (hs.partialRef henter hlost name indent) ih
  | inlined name indent body ops ihbody ih => exact hs.cons hlost (hs.inlined ihbody name indent) ih

omit henter hlost in
theorem Steps.Alike.execute (limit : Nat) (ops : List Op) :
    p.Alike Eq (s.execute limit ops) (s'.execute limit ops) := by
  induction limit generalizing ops with
  | zero => exact .throw _
  | succ limit ih => exact hs.renderAll ih (hs.loses.execute p.closed_loses limit) ops

omit hs henter hlost in
theorem Renderer.Alike.execute {r : Renderer η σ} {r' : Renderer η' σ'} (hr : r.Alike p r')
    (limit : Nat) (ops : List Op) : p.Alike Eq (r.execute limit ops) (r'.execute limit ops) := by
  rw [← r.steps_execute, ← r'.steps_execute]
  exact Steps.Alike.execute hr limit ops

end Alike

end Mustache
