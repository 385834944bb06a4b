import Mustache.Host.Scripted
import Mustache.Proofs.Render.Parallel

/-!
# Mustache.Proofs.Render.Scopes

Renderings among the other things that are done with a context.

A caller pushes and pops frames, sets globals, changes the policy, looks paths up and renders
(`Action`). What an action makes of the context does not depend on anything else, and rendering
leaves the context as it is (`Action.take_context`), so renderings can be left out of a run without
changing what the other actions reply (`Action.takeAll_others`). Where neither the host nor the
source of partials changes what it answers (`Host.Steady`, `Resolver.Steady`), a rendering in the
same context gives the same answer again, whatever is done in between (`Template.render_steady`).
The host of a script is steady if none of its lambdas counts its calls (`Script.steady`).
-/

namespace Mustache

variable {η σ : Type}

/-! ## Actions -/

inductive Action where
  | push (frame : Value)
  | pop
  | set (key : String) (value : Value)
  | raise (on : Bool)
  | lookup (path : KeyPath)
  | resolve (path : KeyPath)
  | render (template : Template)

inductive Reply where
  | depth (depth : Nat)
  | done
  | found (value : Option Value)
  | resolved (answer : Except Error Value)
  | rendered (answer : Except Error String)

namespace Reply

def isRendered : Reply → Bool
  | .rendered _ => true
  | _ => false

def number? : Reply → Option Int
  | .found (some (.integer n)) => some n
  | _ => none

end Reply

namespace Action

def isRender : Action → Bool
  | .render _ => true
  | _ => false

def onContext (c : Context) : Action → Context
  | .push frame => c.push frame
  | .pop => c.pop
  | .set key value => c.set key value
  | .raise on => c.withPolicy on
  | .lookup _ | .resolve _ | .render _ => c

def take (host : Host η) (resolver : Resolver σ) (scene : Scene η σ) :
    Action → Reply × Scene η σ
  | .push frame =>
    let context := scene.context.push frame
    (.depth context.depth, { scene with context := context })
  | .pop =>
    let context := scene.context.pop
    (.depth context.depth, { scene with context := context })
  | .set key value => (.done, { scene with context := scene.context.set key value })
  | .raise on => (.done, { scene with context := scene.context.withPolicy on })
  | .lookup path =>
    let (found, kept) := scene.context.lookup host path scene.host
    (.found found, { scene with host := kept })
  | .resolve path =>
    let (answer, kept) := scene.context.resolve host path scene.host
    (.resolved answer, { scene with host := kept })
  | .render template =>
    let (answer, scene') := template.render host resolver scene
    (.rendered answer, scene')

def takeAll (host : Host η) (resolver : Resolver σ) :
    List Action → Scene η σ → List Reply × Scene η σ
  | [], scene => ([], scene)
  | action :: actions, scene =>
    let (reply, scene') := action.take host resolver scene
    let (replies, scene'') := takeAll host resolver actions scene'
    (reply :: replies, scene'')

def others (actions : List Action) : List Action := actions.filter (!·.isRender)

end Action

def Reply.others (replies : List Reply) : List Reply := replies.filter (!·.isRendered)

/-- What records answer does not depend on what was done before. -/
def Host.SteadyRecords (host : Host η) : Prop :=
  ∀ record key s s', (host.field record key s).1 = (host.field record key s').1 ∧
    (host.method record key s).1 = (host.method record key s').1

theorem Host.SteadyRecords.like {host : Host η} (h : host.SteadyRecords) {K : η → η → Prop}
    (hK : ∀ s s', K s s') : host.Like .same K host where
  field {s s'} record key _ :=
    ⟨(h record key s s').1 ▸ Option.rel_refl (fun _ => rfl) _, hK _ _⟩
  method {s s'} record key _ :=
    ⟨(h record key s s').2 ▸ Option.rel_refl (fun _ => rfl) _, hK _ _⟩

theorem Host.SteadyRecords.likeItself {host : Host η} (h : host.SteadyRecords) :
    host.Like .same (fun _ _ => True) host := h.like fun _ _ => trivial

theorem Host.SteadyRecords.lookup {host : Host η} (h : host.SteadyRecords) {c c' : Context}
    (hcontext : c.Like .same c') (path : KeyPath) (s s' : η) :
    (c.lookup host path s).1 = (c'.lookup host path s').1 :=
  (hcontext.lookup h.likeItself path trivial).eq

namespace Action

variable {host : Host η} {resolver : Resolver σ}

theorem take_context (scene : Scene η σ) (action : Action) :
    (action.take host resolver scene).2.context = action.onContext scene.context := by
  cases action with
  | render t => exact t.render_context host resolver scene
  | _ => rfl

theorem takeAll_context (actions : List Action) (scene : Scene η σ) :
    (takeAll host resolver actions scene).2.context =
      actions.foldl onContext scene.context := by
  induction actions generalizing scene with
  | nil => rfl
  | cons action actions ih =>
    have hafter : (action.take host resolver scene).2.context = action.onContext scene.context :=
      take_context scene action
    rw [List.foldl_cons, ← hafter]
    exact ih _

theorem foldl_others (actions : List Action) (c : Context) :
    (others actions).foldl onContext c = actions.foldl onContext c := by
  induction actions generalizing c with
  | nil => rfl
  | cons action actions ih => cases action <;> exact ih _

theorem take_reply (hrecords : host.SteadyRecords) {scene scene' : Scene η σ}
    (hcontext : scene.context = scene'.context) {action : Action} (h : action.isRender = false) :
    (action.take host resolver scene).1 = (action.take host resolver scene').1 := by
  have hsame : scene.context.Like .same scene'.context :=
    .of_eq (by rw [hcontext]) (by rw [hcontext])
  cases action with
  | lookup path => exact congrArg Reply.found (hrecords.lookup hsame path _ _)
  | resolve path =>
    have hresolved : Matches Eq (scene.context.resolve host path scene.host).1
        (scene'.context.resolve host path scene'.host).1 :=
      (hsame.resolve hrecords.likeItself (by rw [hcontext]) path trivial).1
    exact congrArg Reply.resolved hresolved.eq
  | render t => cases h
  | _ => simp only [take, hcontext]

theorem takeAll_others (hrecords : host.SteadyRecords) (actions : List Action) :
    ∀ {scene scene' : Scene η σ}, scene.context = scene'.context →
      (takeAll host resolver (others actions) scene).1 =
        Reply.others (takeAll host resolver actions scene').1 := by
  induction actions with
  | nil => exact fun _ => rfl
  | cons action actions ih =>
    intro scene scene' hcontext
    have hafter : (action.take host resolver scene').2.context = action.onContext scene'.context :=
      take_context scene' action
    cases hrender : action.isRender with
    | true =>
      cases action with
      | render t => exact ih (hcontext.trans hafter.symm)
      | _ => cases hrender
    | false =>
      have hreply : (action.take host resolver scene).1 = (action.take host resolver scene').1 :=
        take_reply hrecords hcontext hrender
      have hcontext' : (action.take host resolver scene).2.context =
          (action.take host resolver scene').2.context :=
        (take_context scene action).trans (hcontext ▸ hafter.symm)
      have hnext := ih hcontext'
      have hrendered : (action.take host resolver scene').1.isRendered = false := by
        cases action with
        | render t => cases hrender
        | _ => rfl
      have hothers : others (action :: actions) = action :: others actions := by
        simp [others, hrender]
      rw [hothers]
      simp only [takeAll, Reply.others, List.filter_cons, hrendered, hreply, Bool.not_false,
        if_true]
      exact congrArg _ hnext

end Action

/-! ## Rendering again -/

/-- Nothing that the host answers depends on what was done before. -/
structure Host.Steady (host : Host η) : Prop where
  records : host.SteadyRecords
  lambdas (lambda : Lambda) (text : String) (s s' : η) :
    (host.call lambda text s).1 = (host.call lambda text s').1

/-- All texts that the lambdas return are known. -/
def Host.Returns (host : Host η) (known : String → Prop) : Prop :=
  ∀ lambda text s source, (host.call lambda text s).1 = .text source → known source

/-- Whether what a lambda returns depends on how often it was called. -/
def Behaviour.counts : Behaviour → Bool
  | .count | .sequence _ => true
  | .echo | .wrap _ _ | .length => false

namespace Script

variable {s : Script}

theorem steadyRecords (s : Script) : s.host.SteadyRecords := by
  intro record key j j'
  simp only [host, field, method]
  cases s.records[record.id]? <;> exact ⟨rfl, rfl⟩

theorem steady (h : ∀ scripted ∈ s.lambdas, scripted.behaviour.counts = false) :
    s.host.Steady where
  records := s.steadyRecords
  lambdas lambda text j j' := by
    change (s.call lambda text j).1 = (s.call lambda text j').1
    rw [call, call]
    cases hfound : s.lambdas[lambda.id]? with
    | none => rfl
    | some scripted =>
      have hcounts := h scripted (List.mem_of_getElem? hfound)
      cases hbehaviour : scripted.behaviour with
      | count =>
        rw [hbehaviour] at hcounts
        cases hcounts
      | sequence results =>
        rw [hbehaviour] at hcounts
        cases hcounts
      | _ => simp only [hbehaviour, answer]

theorem returns {known : String → Prop}
    (h : ∀ scripted ∈ s.lambdas, ∃ results, scripted.behaviour = .sequence results ∧
      ∀ text, .text text ∈ results → known text) : s.host.Returns known := by
  intro lambda raw j text hcall
  change (s.call lambda raw j).1 = .text text at hcall
  rw [call] at hcall
  cases hfound : s.lambdas[lambda.id]? with
  | none =>
    rw [hfound] at hcall
    cases hcall
  | some scripted =>
    obtain ⟨results, hbehaviour, hknown⟩ := h scripted (List.mem_of_getElem? hfound)
    simp only [hfound, hbehaviour, answer, Option.getD_eq_iff] at hcall
    obtain hlast | ⟨-, ⟨⟩⟩ := hcall
    exact hknown text (List.mem_of_mem_take (List.mem_of_getLast? hlast))

end Script

/-- The same templates are found again, as long as the store is ready, and it stays so. -/
structure Resolver.Steady (resolver : Resolver σ) (Ready : σ → Prop) (known : String → Prop) :
    Prop where
  partialTemplate (name : String) {store store' : σ} : Ready store → Ready store' →
    Matches (Option.Rel fun t t' => t.ops = t'.ops) (resolver.partialTemplate name store).1
      (resolver.partialTemplate name store').1
  dynamicTemplate {source : String} (delimiters : Delimiters) {store store' : σ} : known source →
    Ready store → Ready store' →
    Matches (fun t t' => t.ops = t'.ops) (resolver.dynamicTemplate source delimiters store).1
      (resolver.dynamicTemplate source delimiters store').1
  keepsPartial (name : String) {store : σ} : Ready store →
    Ready (resolver.partialTemplate name store).2
  keepsDynamic {source : String} (delimiters : Delimiters) {store : σ} : known source →
    Ready store → Ready (resolver.dynamicTemplate source delimiters store).2

theorem Resolver.noPartials_steady (options : CompilerOptions) :
    (Resolver.noPartials options).Steady (fun _ => True) fun _ => True where
  partialTemplate _ _ _ _ _ := .ok .none
  dynamicTemplate _ _ _ _ _ _ := Matches.refl (fun t : Template => Eq.refl t.ops) _
  keepsPartial _ _ _ := trivial
  keepsDynamic _ _ _ _ := trivial

/-- Two renderings in the same context, at different times. -/
def Pairing.again (Ready : σ → Prop) (known : String → Prop) : Pairing η σ η σ :=
  .sameContexts (fun _ store _ store' => Ready store ∧ Ready store') (fun _ => False) known

theorem Renderer.alike_again {options : CompilerOptions} {host : Host η} {resolver : Resolver σ}
    {Ready : σ → Prop} {known : String → Prop} (hhost : host.Steady) (htexts : host.Returns known)
    (hresolver : resolver.Steady Ready known) :
    Renderer.Alike (.again Ready known) ⟨options, host, resolver⟩ ⟨options, host, resolver⟩ where
  options := rfl
  same _ := id
  loses := Pairing.loses_of_const (fun _ _ _ => id) _
  resolve path := by
    refine .of_scenes ?_
    rintro c _ kept kept' store store' rfl hready
    have hsame : Matches Eq (c.resolve host path kept).1 (c.resolve host path kept').1 :=
      ((Context.Like.of_eq rfl rfl : c.Like .same c).resolve hhost.records.likeItself rfl path
        trivial).1
    exact .inr (.inr ⟨hsame, rfl, rfl, hready⟩)
  call lambda text _ := by
    refine .of_scenes ?_
    rintro c _ kept kept' store store' rfl hready
    exact .inr (.inr ⟨.ok ⟨hhost.lambdas lambda text kept kept', htexts lambda text kept'⟩, rfl,
      rfl, hready⟩)
  partialTemplate name := .ofStores fun _ _ _ _ h =>
    ⟨hresolver.partialTemplate name h.1 h.2, hresolver.keepsPartial name h.1,
      hresolver.keepsPartial name h.2⟩
  dynamicTemplate delimiters hknown := .ofStores fun _ _ _ _ h =>
    ⟨hresolver.dynamicTemplate delimiters hknown h.1 h.2,
      hresolver.keepsDynamic delimiters hknown h.1, hresolver.keepsDynamic delimiters hknown h.2⟩

section Steady

variable {host : Host η} {resolver : Resolver σ} {Ready : σ → Prop} {known : String → Prop}
  (hhost : host.Steady) (htexts : host.Returns known) (hresolver : resolver.Steady Ready known)
include hhost htexts hresolver

theorem Template.render_steady (t : Template) {scene scene' : Scene η σ}
    (hcontext : scene.context = scene'.context) (hready : Ready scene.store)
    (hready' : Ready scene'.store) :
    (t.render host resolver scene).1 = (t.render host resolver scene').1 ∧
      Ready (t.render host resolver scene).2.store := by
  have halike : Renderer.Alike (.again Ready known) ⟨t.options, host, resolver⟩
      ⟨t.options, host, resolver⟩ := Renderer.alike_again hhost htexts hresolver
  obtain ⟨⟨⟩⟩ | ⟨_, _, ⟨⟩⟩ | ⟨hmatches, -, -, hafter, -⟩ :=
    halike.execute (1 + maxPartialDepth + host.stack) t.ops scene scene' hcontext
      ⟨hready, hready'⟩
  exact ⟨hmatches.eq, hafter⟩

theorem Action.takeAll_ready (actions : List Action) :
    ∀ {scene : Scene η σ}, Ready scene.store →
      Ready (takeAll host resolver actions scene).2.store := by
  induction actions with
  | nil => exact id
  | cons action actions ih =>
    intro scene hready
    suffices hafter : Ready (action.take host resolver scene).2.store from ih hafter
    cases action with
    | render t => exact (t.render_steady hhost htexts hresolver rfl hready hready).2
    | _ => exact hready

end Steady

/-- A rendering leaves the context as it finds it, also when it fails. So in any run of actions the
renderings can be left out: the context becomes the same, and so are the replies to the other
actions, where those of records do not depend on what was done before. Where nothing that the host
answers depends on that, and the same templates are found again, rendering in the same context at
any later time gives the same answer. -/
theorem Template.render_isolated (t : Template) (host : Host η) (resolver : Resolver σ)
    (scene : Scene η σ) :
    let result := t.render host resolver scene
    result.2.context = scene.context ∧
      (∀ actions, (Action.takeAll host resolver (Action.others actions) scene).2.context =
        (Action.takeAll host resolver actions scene).2.context) ∧
      (host.SteadyRecords → ∀ actions,
        (Action.takeAll host resolver (Action.others actions) scene).1 =
          Reply.others (Action.takeAll host resolver actions scene).1) ∧
      ∀ Ready known, host.Steady → host.Returns known → resolver.Steady Ready known →
        Ready scene.store → ∀ actions,
          let later := (Action.takeAll host resolver actions result.2).2
          later.context = scene.context → (t.render host resolver later).1 = result.1 := by
  intro result
  refine ⟨t.render_context host resolver scene, fun actions => ?_, fun hrecords actions =>
    Action.takeAll_others hrecords actions rfl, ?_⟩
  · rw [Action.takeAll_context, Action.takeAll_context, Action.foldl_others]
  · intro Ready known hhost htexts hresolver hready actions later hcontext
    have hfirst : Ready result.2.store :=
      (t.render_steady hhost htexts hresolver rfl hready hready).2
    have hlater := Action.takeAll_ready hhost htexts hresolver actions hfirst
    exact (t.render_steady hhost htexts hresolver hcontext hlater hready).1

/-- A lambda that counts its calls returns a text in which a path leads nowhere, below a frame. -/
theorem Template.render_isolated_miss :
    let t : Template := ⟨{}, [.block (.ofString "a") [.block (.ofString "f") [] "{{b}}" .standard]
      "" .standard], []⟩
    let host : Host Nat := { call := fun _ text n => (.text text, n + 1)
                             field := fun _ _ n => (none, n), method := fun _ _ n => (none, n) }
    let resolver := Resolver.noPartials {}
    let value : Value := .map [("a", .integer 1), ("f", .lambda ⟨0⟩)]
    let scene : Scene Nat Unit := ⟨(Context.ofValue value).withPolicy true, 0, ()⟩
    let actions : List Action := [.push (.integer 2), .render t, .lookup (.ofString "."), .pop]
    let later := Action.takeAll host resolver actions (t.render host resolver scene).2
    (t.render host resolver scene).1 = .error (.contextMiss "b") ∧
      (t.render host resolver scene).2.host = 1 ∧
      (t.render host resolver scene).2.context = scene.context ∧
      (Action.takeAll host resolver (Action.others actions) scene).1 =
        Reply.others (Action.takeAll host resolver actions scene).1 ∧
      (t.render host resolver later.2).1 = (t.render host resolver scene).1 := by
  intro t host resolver value scene actions later
  have hrecords : host.SteadyRecords := fun _ _ _ _ => ⟨rfl, rfl⟩
  obtain ⟨hcontext, -, hothers, hagain⟩ := t.render_isolated host resolver scene
  refine ⟨by decide +kernel, by decide +kernel, hcontext, hothers hrecords actions,
    hagain (fun _ => True) (fun _ => True) ⟨hrecords, fun _ _ _ _ => rfl⟩ (fun _ _ _ _ _ => trivial)
      (Resolver.noPartials_steady _) trivial actions ?_⟩
  rw [Action.takeAll_context, hcontext]
  rfl

/-- Where the conditions do not hold: partials that are there only the second time that they are
looked for; and a record that replies with how often a lambda was called. -/
theorem Template.render_isolated_exceptions :
    (let t : Template := ⟨{}, [.partialRef "p" ""], []⟩
     let late : Template := ⟨{}, [.text "x"], []⟩
     let resolver : Resolver Nat :=
      { partialTemplate := fun _ n => (.ok (if n = 0 then none else some late), n + 1)
        dynamicTemplate := fun _ _ n => (.ok late, n) }
     let scene : Scene Unit Nat := ⟨.empty, (), 0⟩
     (t.render .empty resolver scene).1 = .ok "" ∧
      (t.render .empty resolver (t.render .empty resolver scene).2).1 = .ok "x") ∧
    let host : Host Nat := { call := fun _ _ n => (.null, n + 1)
                             field := fun _ _ n => (some (.integer n), n)
                             method := fun _ _ n => (none, n) }
    let t : Template := ⟨{}, [.interpolation (.ofString "f") true], []⟩
    let resolver := Resolver.noPartials {}
    let scene : Scene Nat Unit := ⟨.ofValue (.map [("f", .lambda ⟨0⟩), ("r", .record ⟨0⟩)]), 0, ()⟩
    let actions : List Action := [.render t, .lookup (.ofString "r.calls")]
    (Action.takeAll host resolver (Action.others actions) scene).1 ≠
      Reply.others (Action.takeAll host resolver actions scene).1 := by
  constructor
  · constructor <;> decide +kernel
  · intro host t resolver scene actions hsame
    exact absurd (congrArg (List.map Reply.number?) hsame) (by decide +kernel)

end Mustache
