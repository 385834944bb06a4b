import Mustache.Proofs.Render.Parallel
import Mustache.Proofs.Render.Termination

/-!
# Mustache.Proofs.Render.Opacity

Where lambdas are disabled, which functions they are makes no difference.

`Value.mask` puts one function in the place of all, at any depth. Values that are the same when
they are masked have the same parts, are truthy together and are written alike (`Value.masked`), so
rendering without lambdas cannot tell them apart, wherever it comes to them. `Host.traced` keeps
the calls of lambdas, and a rendering without lambdas leaves it none (`Template.CallsNothing`).
-/

namespace Mustache

namespace Value

mutual

/-- The value with one and the same function in the place of every lambda. -/
def mask : Value → Value
  | .lambda _ => .lambda ⟨0⟩
  | .list items => .list (maskItems items)
  | .map fields => .map (maskFields fields)
  | value => value

def maskItems : List Value → List Value
  | [] => []
  | item :: items => mask item :: maskItems items

def maskFields : List (String × Value) → List (String × Value)
  | [] => []
  | (key, value) :: fields => (key, mask value) :: maskFields fields

end

theorem maskItems_eq_map (items : List Value) : maskItems items = items.map mask := by
  induction items with
  | nil => rfl
  | cons item items ih => rw [maskItems, ih, List.map_cons]

theorem get?_maskFields (fields : Fields) (key : String) :
    Fields.get? (maskFields fields) key = (fields.get? key).map mask := by
  induction fields with
  | nil => rfl
  | cons field fields ih =>
    rw [maskFields, Fields.get?, Fields.get?]
    split
    · rfl
    · exact ih

theorem record?_mask (v : Value) : v.mask.record? = v.record? := by
  cases v <;> rfl

theorem item?_mask (v : Value) (key : String) : v.mask.item? key = (v.item? key).map mask := by
  cases v with
  | list items =>
    rw [mask, item?, item?, maskItems_eq_map]
    cases index? key with
    | none => rfl
    | some i => exact List.getElem?_map
  | map fields => exact get?_maskFields fields key
  | _ => rfl

theorem isTruthy_mask (v : Value) : v.mask.isTruthy = v.isTruthy := by
  cases v with
  | list items => simp [mask, isTruthy, maskItems_eq_map]
  | _ => rfl

theorem frames_mask (v : Value) : v.mask.frames = v.frames.map mask := by
  cases v with
  | list items => exact maskItems_eq_map items
  | bool b => cases b <;> rfl
  | _ => rfl

theorem interpolated_mask (v : Value) : v.mask.interpolated = v.interpolated := by
  cases v <;> rfl

theorem rel_of_map_eq {α β : Type} {f : α → β} {x y : Option α} (h : x.map f = y.map f) :
    Option.Rel (fun a b => f a = f b) x y := by
  cases x <;> cases y
  · exact .none
  · cases h
  · cases h
  · exact .some (Option.some.inj h)

theorem forall₂_of_map_eq {α β : Type} {f : α → β} {xs ys : List α} (h : xs.map f = ys.map f) :
    List.Forall₂ (fun a b => f a = f b) xs ys := by
  rw [← List.forall₂_eq_eq_eq, List.forall₂_map_left_iff, List.forall₂_map_right_iff] at h
  exact h

/-- Values that differ in which functions their lambdas are. -/
def masked : ValueRelation where
  holds v v' := v.mask = v'.mask
  null := rfl
  record {v v'} h := by rw [← v.record?_mask, h, record?_mask]
  item {v v'} key h := rel_of_map_eq (by rw [← v.item?_mask, h, item?_mask])
  frames {v v'} h := forall₂_of_map_eq (by rw [← v.frames_mask, h, frames_mask])
  truthy {v v'} h := by rw [← v.isTruthy_mask, h, isTruthy_mask]
  interpolated {v v'} h := by rw [← v.interpolated_mask, h, interpolated_mask]

end Value

namespace Context

def mask (c : Context) : Context :=
  { c with globals := Value.maskFields c.globals, frames := c.frames.map Value.mask }

theorem like_of_mask_eq {c c' : Context} (h : c.mask = c'.mask) : c.Like Value.masked c' where
  globals key := by
    refine Value.rel_of_map_eq ?_
    rw [← Value.get?_maskFields, ← Value.get?_maskFields]
    exact congrArg (fun c => Fields.get? c.globals key) h
  frames := Value.forall₂_of_map_eq (congrArg Context.frames h)

theorem partialDepth_of_mask_eq {c c' : Context} (h : c.mask = c'.mask) :
    c.partialDepth = c'.partialDepth := by
  have := congrArg Context.partialDepth h
  exact this

theorem raiseOnMiss_of_mask_eq {c c' : Context} (h : c.mask = c'.mask) :
    c.raiseOnMiss = c'.raiseOnMiss := by
  have := congrArg Context.raiseOnMiss h
  exact this

theorem mask_push (c : Context) (v : Value) : (c.push v).mask = c.mask.push v.mask := rfl

end Context

variable {η η' σ : Type}

/-- The host that also keeps which lambdas were called with which texts. -/
def Host.traced (host : Host η) : Host (η × List (Lambda × String)) :=
  { host.lift (List (Lambda × String)) with
    call := fun lambda text s =>
      let (value, kept) := host.call lambda text s.1
      (value, kept, s.2 ++ [(lambda, text)]) }

/-- Rendering in the scene calls no lambda: the trace of calls stays as it is. -/
def Template.CallsNothing (t : Template) (host : Host η) (resolver : Resolver σ)
    (scene : Scene η σ) : Prop :=
  ∀ trace, t.render host.traced resolver ⟨scene.context, (scene.host, trace), scene.store⟩ =
    let (answer, after) := t.render host resolver scene
    (answer, ⟨after.context, (after.host, trace), after.store⟩)

/-- Renderings with the same partials, in contexts that differ in which functions their lambdas
are. -/
def Pairing.masked (K : η → η' → Prop) : Pairing η σ η' σ where
  contexts c c' := c.mask = c'.mask
  values := Value.masked
  related kept store kept' store' := K kept kept' ∧ store = store'
  lost _ _ := False
  excused _ := False
  known _ := True
  push {c c' v v'} h hv := by
    rw [Context.mask_push, Context.mask_push, h, show v.mask = v'.mask from hv]
  deeper h hdepth :=
    ⟨Context.partialDepth_of_mask_eq h ▸ hdepth,
      congrArg (fun c : Context => { c with partialDepth := c.partialDepth + 1 }) h⟩
  deepest h hdepth := .inl (Context.partialDepth_of_mask_eq h ▸ hdepth)
  lost_of_none _ := id

theorem Pairing.masked_sameStores (K : η → η' → Prop) :
    (Pairing.masked K : Pairing η σ η' σ).SameStores :=
  fun ⟨hkept, hstore⟩ => ⟨hstore, fun _ => ⟨hkept, rfl⟩⟩

theorem Renderer.alike_masked {options : CompilerOptions}
    (hdisabled : options.disableLambdas = true) {K : η → η' → Prop} {host : Host η}
    {host' : Host η'} (hhosts : host.Like Value.masked K host') (resolver : Resolver σ) :
    Renderer.Alike (Pairing.masked K) ⟨options, host, resolver⟩ ⟨options, host', resolver⟩ where
  options := rfl
  same henabled := by cases hdisabled.symm.trans henabled
  loses := Pairing.loses_of_const (fun _ _ _ => id) _
  resolve path := by
    refine .resolve (fun c c' h => ?_) (fun store store' => ⟨?_, ?_⟩) path
    · exact ⟨Context.like_of_mask_eq h, Context.raiseOnMiss_of_mask_eq h⟩
    · rintro s s' record key ⟨hkept, hstore⟩
      obtain ⟨hfound, hkept'⟩ := hhosts.field record key hkept
      exact ⟨hfound, hkept', hstore⟩
    · rintro s s' record key ⟨hkept, hstore⟩
      obtain ⟨hfound, hkept'⟩ := hhosts.method record key hkept
      exact ⟨hfound, hkept', hstore⟩
  call _ _ henabled := by cases hdisabled.symm.trans henabled
  partialTemplate _ := .partialTemplate (Pairing.masked_sameStores K) rfl
  dynamicTemplate _ _ := .dynamicTemplate (Pairing.masked_sameStores K) rfl

section Masked

variable {t : Template} (hdisabled : t.options.disableLambdas = true)
include hdisabled

/-- How large the stack of the host is makes no difference. -/
theorem Template.render_eq_execute (host : Host η) (resolver : Resolver σ) (scene : Scene η σ) :
    t.render host resolver scene =
      Renderer.execute ⟨t.options, host, resolver⟩ (1 + maxPartialDepth) t.ops scene :=
  Renderer.execute_eq_of_callsNone (.inl hdisabled) (by omega) (by omega)

theorem Template.alike_masked {K : η → η' → Prop} {host : Host η} {host' : Host η'}
    (hhosts : host.Like Value.masked K host') (resolver : Resolver σ) :
    (Pairing.masked K).Alike Eq (t.render host resolver) (t.render host' resolver) := by
  intro scene scene'
  rw [render_eq_execute hdisabled, render_eq_execute hdisabled]
  exact (Renderer.alike_masked hdisabled hhosts resolver).execute _ _ scene scene'

theorem Template.callsNothing (host : Host η) (resolver : Resolver σ) (scene : Scene η σ) :
    t.CallsNothing host resolver scene := by
  intro trace
  have hlift := host.like_lift trace
  have htraced : host.Like Value.masked (fun kept kept' => kept' = (kept, trace)) host.traced :=
    Host.Like.of_same ⟨hlift.field, hlift.method⟩ fun _ => rfl
  obtain ⟨⟨⟩⟩ | ⟨_, _, ⟨⟩⟩ | ⟨hmatches, hcontext, hcontext', hkept, hstore⟩ :=
    alike_masked hdisabled htraced resolver scene ⟨scene.context, (scene.host, trace), scene.store⟩
      rfl ⟨rfl, rfl⟩
  generalize t.render host resolver scene = result at hmatches hcontext hkept hstore
  generalize t.render host.traced resolver _ = result' at hmatches hcontext' hkept hstore
  obtain ⟨answer, after⟩ := result
  obtain ⟨answer', c', kept', store'⟩ := result'
  obtain rfl : answer = answer' := hmatches.eq
  obtain rfl : c' = scene.context := hcontext'
  obtain rfl : kept' = (after.host, trace) := hkept
  obtain rfl : after.store = store' := hstore
  show _ = (answer, (⟨after.context, _, _⟩ : Scene _ σ))
  rw [show after.context = scene.context from hcontext]

/-- Where lambdas are disabled, rendering in two contexts that differ in which functions their
lambdas are gives the same text or the same error, and calls no lambda. The records of the two hosts
may answer with values that differ so too; partials are the same, in whichever way the template
holds them. -/
theorem Template.render_masked {K : η → η' → Prop} {host : Host η} {host' : Host η'}
    (hhosts : host.Like Value.masked K host') (resolver : Resolver σ) {c c' : Context}
    (hcontexts : c.mask = c'.mask) {kept : η} {kept' : η'} (hkept : K kept kept') (store : σ) :
    let scene : Scene η σ := ⟨c, kept, store⟩
    let scene' : Scene η' σ := ⟨c', kept', store⟩
    (t.render host resolver scene).1 = (t.render host' resolver scene').1 ∧
      (t.render host resolver scene).2.store = (t.render host' resolver scene').2.store ∧
      K (t.render host resolver scene).2.host (t.render host' resolver scene').2.host ∧
      t.CallsNothing host resolver scene ∧ t.CallsNothing host' resolver scene' := by
  intro scene scene'
  obtain ⟨⟨⟩⟩ | ⟨_, _, ⟨⟩⟩ | ⟨hmatches, -, -, hkept', hstore⟩ :=
    alike_masked hdisabled hhosts resolver scene scene' hcontexts ⟨hkept, rfl⟩
  exact ⟨hmatches.eq, hstore, hkept', callsNothing hdisabled host resolver scene,
    callsNothing hdisabled host' resolver scene'⟩

end Masked

/-- A section for a lambda in a list, which is written and then a frame for a partial. -/
theorem Template.render_masked_section :
    let t : Template := ⟨{ disableLambdas := true },
      [.block (.ofString "fs.0") [.interpolation (.ofString ".") true, .partialRef "p" ""] ""
        .standard], []⟩
    let inner : Template := ⟨{}, [.block (.ofString ".") [.text "in"] "" .standard], []⟩
    let resolver : Resolver Unit := ⟨fun _ s => (.ok inner, s), fun _ _ s => (.ok inner, s)⟩
    let host : Host Unit := { Host.empty with call := fun _ _ s => (.text "called", s) }
    let value (lambda : Lambda) : Value := .map [("fs", .list [.lambda lambda])]
    let scene : Scene Unit Unit := ⟨.ofValue (value ⟨1⟩), (), ()⟩
    let scene' : Scene Unit Unit := ⟨.ofValue (value ⟨2⟩), (), ()⟩
    (t.render host resolver scene).1 = .ok "in" ∧ (t.render .empty resolver scene').1 = .ok "in" ∧
      t.CallsNothing host resolver scene ∧ t.CallsNothing .empty resolver scene' := by
  intro t inner resolver host value scene scene'
  have hhosts : host.Like Value.masked Eq Host.empty :=
    ⟨fun _ _ hkept => ⟨.none, hkept⟩, fun _ _ hkept => ⟨.none, hkept⟩⟩
  have hcontexts : (Context.ofValue (value ⟨1⟩)).mask = (Context.ofValue (value ⟨2⟩)).mask := rfl
  have hkept : () = () := rfl
  obtain ⟨hsame, -, -, hcalls, hcalls'⟩ :=
    Template.render_masked (t := t) rfl hhosts resolver hcontexts hkept ()
  have hanswer : (t.render host resolver scene).1 = .ok "in" := by decide +kernel
  exact ⟨hanswer, hsame.symm.trans hanswer, hcalls, hcalls'⟩

end Mustache
