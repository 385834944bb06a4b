import Mustache.Proofs.Engine.Errors
import Mustache.Proofs.Render.Parallel

/-!
# Mustache.Proofs.Render.Misses

What it changes that a path that leads nowhere is an error.

`Renderer.noting` looks paths up as the renderer does, and keeps the paths that lead nowhere, in
the order in which rendering comes to them; nothing else is different (`Renderer.noting_alike`), so
`Template.misses` are the misses of a rendering. Up to the first of them it makes no difference
whether misses are errors, and there the rendering fails with it where they are
(`Renderer.missing_alike`). A rendering where they are not does not fail with one
(`Template.render_tolerant`), so the first miss is all that the policy adds
(`Template.render_withPolicy`).
-/

namespace Mustache

variable {η σ α : Type}

def Renderer.noting (r : Renderer η σ) : Steps (η × List String) σ where
  renderer := ⟨r.options, r.host.lift (List String), r.resolver⟩
  resolve path := fun scene =>
    let (answer, kept) := scene.context.resolve r.host path scene.host.1
    let (found, _) := scene.context.lookup r.host path scene.host.1
    let missed := if found.isNone then [path.raw] else []
    (answer, { scene with host := (kept, scene.host.2 ++ missed) })

/-- The paths that lead nowhere while the template is rendered, in order. -/
def Template.misses (t : Template) (host : Host η) (resolver : Resolver σ) (scene : Scene η σ) :
    List String :=
  let r : Renderer η σ := ⟨t.options, host, resolver⟩
  (r.noting.execute (1 + maxPartialDepth + host.stack) t.ops
    ⟨scene.context, (scene.host, []), scene.store⟩).2.host.2

/-! ## Keeping the misses -/

/-- A rendering and the same one that also keeps something. -/
def Pairing.noted (η σ : Type) : Pairing η σ (η × List String) σ :=
  .sameContexts (fun kept store kept' store' => kept'.1 = kept ∧ store = store') (fun _ => False)
    fun _ => True

theorem Pairing.noted_sameStores : (Pairing.noted η σ).SameStores :=
  fun ⟨hkept, hstore⟩ => ⟨hstore, fun _ => ⟨hkept, rfl⟩⟩

theorem Renderer.noting_alike (r : Renderer η σ) :
    r.steps.Alike (Pairing.noted η σ) r.noting where
  options := rfl
  same _ := id
  loses := Pairing.loses_of_const (fun _ _ _ => id) _
  resolve path := by
    refine .of_scenes ?_
    rintro c _ kept kept' store _ rfl ⟨rfl, rfl⟩
    exact .inr (.inr ⟨.refl (fun _ => rfl) _, rfl, rfl, rfl, rfl⟩)
  call lambda text _ := by
    refine .of_scenes ?_
    rintro c _ kept kept' store _ rfl ⟨rfl, rfl⟩
    exact .inr (.inr ⟨.ok ⟨rfl, fun _ _ => trivial⟩, rfl, rfl, rfl, rfl⟩)
  partialTemplate _ := .partialTemplate Pairing.noted_sameStores rfl
  dynamicTemplate _ _ := .dynamicTemplate Pairing.noted_sameStores rfl

/-! ## Up to the first miss -/

/-- A rendering where misses are errors and one where they are kept. Until the first miss they are
the same; the first fails with it. -/
def Pairing.missing (η σ : Type) : Pairing η σ (η × List String) σ where
  contexts c c' := c = c'.withPolicy true ∧ c'.raiseOnMiss = false
  values := .same
  related kept store kept' store' := kept' = (kept, []) ∧ store = store'
  lost failure kept' := ∃ path, failure = some (.contextMiss path) ∧ kept'.2.head? = some path
  excused _ := False
  known _ := True
  push := by
    rintro _ c' _ _ ⟨rfl, hpolicy⟩ rfl
    exact ⟨rfl, hpolicy⟩
  deeper := by
    rintro _ c' ⟨rfl, hpolicy⟩ hdepth
    exact ⟨hdepth, rfl, hpolicy⟩
  deepest := by
    rintro _ c' ⟨rfl, hpolicy⟩ hdepth
    exact .inl hdepth
  lost_of_none := by
    rintro _ _ ⟨_, ⟨⟩, _⟩

theorem Pairing.missing_sameStores : (Pairing.missing η σ).SameStores :=
  fun ⟨hkept, hstore⟩ => ⟨hstore, fun _ => ⟨hkept, rfl⟩⟩

theorem Renderer.missing_alike (r : Renderer η σ) :
    r.steps.Alike (Pairing.missing η σ) r.noting where
  options := rfl
  same _ := id
  loses := by
    refine ⟨fun path error scene h => ?_, fun _ _ _ _ h => h, fun _ _ _ h => h,
      fun _ _ _ _ h => h⟩
    obtain ⟨first, hfailure, hfirst⟩ := h
    exact ⟨first, hfailure, by simp [Renderer.noting, hfirst]⟩
  resolve path := by
    refine .of_scenes ?_
    rintro _ c kept _ store _ ⟨rfl, hpolicy⟩ ⟨rfl, rfl⟩
    have hlookup : (c.withPolicy true).lookup r.host path kept = c.lookup r.host path kept := rfl
    simp only [Renderer.steps, Renderer.resolve, Renderer.noting, Context.resolve, hlookup, hpolicy]
    rcases c.lookup r.host path kept with ⟨_ | v, kept'⟩
    · exact .inl ⟨path.raw, rfl, rfl⟩
    · exact .inr (.inr ⟨.ok rfl, trivial, trivial, rfl, rfl⟩)
  call lambda text _ := by
    refine .of_scenes ?_
    rintro _ c kept _ store _ hcontexts ⟨rfl, rfl⟩
    exact .inr (.inr ⟨.ok ⟨rfl, fun _ _ => trivial⟩, rfl, rfl, rfl, rfl⟩)
  partialTemplate _ := .partialTemplate Pairing.missing_sameStores rfl
  dynamicTemplate _ _ := .dynamicTemplate Pairing.missing_sameStores rfl

/-! ## Without the policy -/

/-- Where misses are no errors, the step does not fail with one. -/
def Render.Tolerant (m : Render η σ α) : Prop :=
  ∀ scene, scene.context.raiseOnMiss = false →
    (m scene).2.context = scene.context ∧ ∀ path, (m scene).1 ≠ .error (.contextMiss path)

theorem Render.closed_tolerant : Render.Closed (η := η) (σ := σ) Render.Tolerant where
  pure _ _ _ := ⟨rfl, by rintro _ ⟨⟩⟩
  throw _ _ := ⟨rfl, by rintro _ ⟨⟩⟩
  bind := by
    intro α β m f hm hf scene hpolicy
    have hfirst := hm scene hpolicy
    rw [bind_apply]
    rcases hresult : m scene with ⟨e | a, scene'⟩ <;> rw [hresult] at hfirst
    · obtain ⟨hcontext, herror⟩ := hfirst
      exact ⟨hcontext, fun path h => herror path (by cases h; rfl)⟩
    · obtain ⟨hcontext, -⟩ := hfirst
      have hcontext : scene'.context = scene.context := hcontext
      obtain ⟨hcontext', herror⟩ := hf a scene' (hcontext ▸ hpolicy)
      exact ⟨hcontext'.trans hcontext, herror⟩
  withFrame frame hm scene hpolicy := by
    obtain ⟨hcontext, herror⟩ := hm { scene with context := scene.context.push frame } hpolicy
    exact ⟨congrArg Context.pop hcontext, herror⟩
  insidePartial name hm scene hpolicy := by
    simp only [Renderer.insidePartial]
    split
    · obtain ⟨hcontext, herror⟩ := hm { scene with context :=
        { scene.context with partialDepth := scene.context.partialDepth + 1 } } hpolicy
      exact ⟨congrArg (fun c => { c with partialDepth := c.partialDepth - 1 }) hcontext, herror⟩
    · exact ⟨rfl, by rintro _ ⟨⟩⟩

theorem Renderer.stepsIn_tolerant {r : Renderer η σ} (hresolver : r.resolver.Plain) :
    r.StepsIn Render.Tolerant where
  resolve path scene hpolicy := by
    refine ⟨rfl, fun miss h => ?_⟩
    simp only [steps, resolve, Context.resolve, hpolicy] at h
    split at h <;> cases h
  call _ _ _ _ := ⟨rfl, by rintro _ ⟨⟩⟩
  partialTemplate name scene _ := ⟨rfl, fun _ h => hresolver.partialTemplate h⟩
  dynamicTemplate source delimiters scene _ := ⟨rfl, fun _ h => hresolver.dynamicTemplate h⟩

theorem Template.render_tolerant (t : Template) (host : Host η) {resolver : Resolver σ}
    (hresolver : resolver.Plain) : Render.Tolerant (t.render host resolver) :=
  (Renderer.stepsIn_tolerant hresolver).execute Render.closed_tolerant _ _

/-! ## The policy -/

section Policy

variable (t : Template) (host : Host η) (c : Context) (kept : η)

theorem Template.noting_answer (resolver : Resolver σ) (store : σ) (limit : Nat) :
    let r : Renderer η σ := ⟨t.options, host, resolver⟩
    (r.noting.execute limit t.ops ⟨c, (kept, []), store⟩).1 =
      (r.execute limit t.ops ⟨c, kept, store⟩).1 := by
  intro r
  rw [← r.steps_execute]
  obtain ⟨⟨⟩⟩ | ⟨_, _, ⟨⟩⟩ | ⟨hmatches, -⟩ :=
    r.noting_alike.execute limit t.ops ⟨c, kept, store⟩ ⟨c, (kept, []), store⟩ rfl ⟨rfl, rfl⟩
  exact hmatches.eq.symm

/-- Without misses the policy makes no difference; else the first of them is the error. -/
theorem Template.render_missing (resolver : Resolver σ) (store : σ) :
    let raised := (t.render host resolver ⟨c.withPolicy true, kept, store⟩).1
    let scene : Scene η σ := ⟨c.withPolicy false, kept, store⟩
    (t.misses host resolver scene = [] ∧ raised = (t.render host resolver scene).1) ∨
      ∃ path, (t.misses host resolver scene).head? = some path ∧
        raised = .error (.contextMiss path) := by
  intro raised scene
  let r : Renderer η σ := ⟨t.options, host, resolver⟩
  have hanswer := t.noting_answer host (c.withPolicy false) kept resolver store
    (1 + maxPartialDepth + host.stack)
  have halike := r.missing_alike.execute (1 + maxPartialDepth + host.stack) t.ops
    ⟨c.withPolicy true, kept, store⟩ ⟨c.withPolicy false, (kept, []), store⟩ ⟨rfl, rfl⟩ ⟨rfl, rfl⟩
  rw [r.steps_execute] at halike
  obtain ⟨path, hfailure, hfirst⟩ | ⟨_, _, ⟨⟩⟩ | ⟨hmatches, -, -, hmisses, -⟩ := halike
  · refine .inr ⟨path, hfirst, ?_⟩
    have hraised : failure raised = some (.contextMiss path) := hfailure
    cases hcases : raised with
    | ok text =>
      rw [hcases] at hraised
      cases hraised
    | error error =>
      rw [hcases] at hraised
      cases hraised
      rfl
  · exact .inl ⟨congrArg Prod.snd hmisses, hmatches.eq.trans hanswer⟩

/-- That misses are errors adds the error of the first miss, and nothing else: a text is the same
where they are not, an answer where they are not stays unless it is that error, which does not occur
without the policy, and occurs with it exactly when a path leads nowhere, for the first one. -/
theorem Template.render_withPolicy (e : Engine) (store : Store) :
    let raised := (t.render host e.resolver ⟨c.withPolicy true, kept, store⟩).1
    let scene : Scene η Store := ⟨c.withPolicy false, kept, store⟩
    let passed := (t.render host e.resolver scene).1
    (∀ text, raised = .ok text → passed = .ok text) ∧
      (∀ text, passed = .ok text →
        raised = .ok text ∨ ∃ path, raised = .error (.contextMiss path)) ∧
      (∀ error, passed = .error error →
        raised = .error error ∨ ∃ path, raised = .error (.contextMiss path)) ∧
      (∀ path, passed ≠ .error (.contextMiss path)) ∧
      ∀ path, raised = .error (.contextMiss path) ↔
        (t.misses host e.resolver scene).head? = some path := by
  intro raised scene passed
  obtain ⟨-, hpassed⟩ := t.render_tolerant host e.resolver_plain scene rfl
  obtain ⟨hnone, hsame⟩ | ⟨first, hfirst, hraised⟩ :=
    t.render_missing host c kept e.resolver store
  · have hsame : raised = passed := hsame
    refine ⟨fun _ h => hsame ▸ h, fun _ h => .inl (hsame ▸ h), fun _ h => .inl (hsame ▸ h), hpassed,
      fun path => ⟨fun h => ?_, fun h => ?_⟩⟩
    · exact absurd (hsame.symm.trans h) (hpassed path)
    · rw [hnone] at h
      cases h
  · have hraised : raised = .error (.contextMiss first) := hraised
    refine ⟨fun _ h => ?_, fun _ _ => .inr ⟨first, hraised⟩, fun _ _ => .inr ⟨first, hraised⟩,
      hpassed, fun path => ⟨fun h => ?_, fun h => ?_⟩⟩
    · cases hraised.symm.trans h
    · cases hraised.symm.trans h
      exact hfirst
    · cases hfirst.symm.trans h
      exact hraised

end Policy

/-- The first miss stands in a partial; rendering passes it and comes to another. -/
example :
    let e : Engine := ⟨{}, [("p", "\x7b\x7b#a\x7d\x7d\x7b\x7bb.c\x7d\x7d\x7b\x7b/a\x7d\x7d")]⟩
    let t : Template := ⟨{}, [.partialRef "p" "", .interpolation (.ofString "d") true], []⟩
    let scene : Scene Unit Store :=
      ⟨.ofValue (.map [("a", .integer 1)]), (), ⟨.ofMode .disabled, .empty⟩⟩
    t.misses .empty e.resolver scene = ["b.c", "d"] := by
  decide +kernel

end Mustache
