import Mustache.Proofs.Render.Parallel

/-!
# Mustache.Proofs.Render.Logging

A host whose lambdas keep a record of the texts that they return.

The record says which texts are compiled while a template is rendered. Keeping it changes nothing
else: rendering with a host goes side by side with rendering with the host that records
(`Renderer.alike_of_resolvers`), for stores that give the same templates for the known texts.
-/

namespace Mustache

variable {η σ σ' α β : Type}

namespace Host

/-- The host that also keeps the texts that its lambdas returned. -/
def logging (host : Host η) : Host (η × List String) where
  call lambda text s :=
    match host.call lambda text s.1 with
    | (.text source, kept) => (.text source, kept, source :: s.2)
    | (value, kept) => (value, kept, s.2)
  field record key s :=
    let (found, kept) := host.field record key s.1
    (found, kept, s.2)
  method record key s :=
    let (found, kept) := host.method record key s.1
    (found, kept, s.2)
  stack := host.stack

theorem logging_call (host : Host η) (kept : η) (log : List String) (lambda : Lambda)
    (text : String) :
    ∃ log', host.logging.call lambda text (kept, log) =
        ((host.call lambda text kept).1, (host.call lambda text kept).2, log') ∧ log ⊆ log' ∧
      ∀ source, (host.call lambda text kept).1 = .text source → source ∈ log' := by
  rcases hcall : host.call lambda text kept with ⟨v, kept'⟩
  simp only [logging, hcall]
  cases v with
  | text source =>
    refine ⟨source :: log, rfl, List.subset_cons_self _ _, ?_⟩
    rintro _ ⟨⟩
    exact List.mem_cons_self
  | _ => exact ⟨log, rfl, List.Subset.refl _, by rintro _ ⟨⟩⟩

theorem like_logging (host : Host η) (log : List String) :
    host.Like .same (fun kept kept' => kept' = (kept, log)) host.logging :=
  ⟨(host.like_lift log).field, (host.like_lift log).method⟩

end Host

theorem Context.resolve_logging (c : Context) (host : Host η) (path : KeyPath) (kept : η)
    (log : List String) :
    c.resolve host.logging path (kept, log) =
      ((c.resolve host path kept).1, (c.resolve host path kept).2, log) := by
  obtain ⟨hmatches, hkept⟩ :=
    (Context.Like.of_eq rfl rfl : c.Like .same c).resolve (host.like_logging log) rfl path rfl
  exact Prod.ext hmatches.eq.symm hkept

/-! ## Side by side with the record -/

/-- The record holds a text that is not known. -/
def Strays (known : String → Prop) (kept : η × List String) : Prop :=
  ∃ text ∈ kept.2, ¬ known text

theorem Renderer.keeps_strays (known : String → Prop) (options : CompilerOptions) (host : Host η)
    (resolver : Resolver σ) :
    Renderer.Keeps (fun kept _ => Strays known kept) ⟨options, host.logging, resolver⟩ := by
  refine ⟨fun path scene hstrays => ?_, fun lambda text scene hstrays => ?_,
    fun name scene hstrays => hstrays, fun source delimiters scene hstrays => hstrays⟩
  · obtain ⟨context, ⟨kept, log⟩, store⟩ := scene
    simp only [Renderer.steps, Renderer.resolve, Context.resolve_logging]
    exact hstrays
  · obtain ⟨context, ⟨kept, log⟩, store⟩ := scene
    obtain ⟨log', hcall, hsubset, -⟩ := host.logging_call kept log lambda text
    obtain ⟨unknown, hmem, hunknown⟩ := hstrays
    simp only [Renderer.steps, Renderer.call, hcall]
    exact ⟨unknown, hsubset hmem, hunknown⟩

/-- A rendering and one whose host keeps the record, up to where the record strays. -/
def Pairing.logged (stores : σ → σ' → Prop) (known : String → Prop) :
    Pairing η σ (η × List String) σ' :=
  .sameContexts (fun kept store kept' store' => kept'.1 = kept ∧ stores store store')
    (Strays known) known

section Logged

variable {stores : σ → σ' → Prop} {known : String → Prop} {R : α → β → Prop}

theorem Pairing.Alike.outcome {m : Render η σ α} {m' : Render (η × List String) σ' β}
    (h : (Pairing.logged stores known).Alike R m m') (context : Context) (kept : η)
    (log : List String) {store : σ} {store' : σ'} (hstores : stores store store') :
    let result := m ⟨context, kept, store⟩
    let result' := m' ⟨context, (kept, log), store'⟩
    Strays known result'.2.host ∨
      Matches R result.1 result'.1 ∧ result.2.context = result'.2.context ∧
        result'.2.host.1 = result.2.host ∧ stores result.2.store result'.2.store := by
  obtain hstrays | ⟨_, _, ⟨⟩⟩ | ⟨hmatches, hcontext, hcontext', hrelated⟩ :=
    h ⟨context, kept, store⟩ ⟨context, (kept, log), store'⟩ rfl ⟨rfl, hstores⟩
  · exact .inl hstrays
  · exact .inr ⟨hmatches, hcontext.trans hcontext'.symm, hrelated⟩

theorem Pairing.Alike.ofLoggedStores {operation : σ → Except Error α × σ}
    {operation' : σ' → Except Error β × σ'}
    (h : ∀ store store', stores store store' →
      Matches R (operation store).1 (operation' store').1 ∧
        stores (operation store).2 (operation' store').2) :
    (Pairing.logged (η := η) stores known).Alike R
      (fun scene => ((operation scene.store).1, { scene with store := (operation scene.store).2 }))
      (fun scene =>
        ((operation' scene.store).1, { scene with store := (operation' scene.store).2 })) := by
  refine .ofStores fun kept store kept' store' ⟨hkept, hstores⟩ => ?_
  obtain ⟨hmatches, hstores'⟩ := h _ _ hstores
  exact ⟨hmatches, hkept, hstores'⟩

theorem Renderer.alike_of_resolvers {resolver : Resolver σ} {resolver' : Resolver σ'}
    (options : CompilerOptions) (host : Host η)
    (hpartial : ∀ name store store', stores store store' →
      Matches (Option.Rel fun t t' => t.ops = t'.ops) (resolver.partialTemplate name store).1
          (resolver'.partialTemplate name store').1 ∧
        stores (resolver.partialTemplate name store).2 (resolver'.partialTemplate name store').2)
    (hdynamic : ∀ source, known source → ∀ delimiters store store', stores store store' →
      Matches (fun t t' => t.ops = t'.ops) (resolver.dynamicTemplate source delimiters store).1
          (resolver'.dynamicTemplate source delimiters store').1 ∧
        stores (resolver.dynamicTemplate source delimiters store).2
          (resolver'.dynamicTemplate source delimiters store').2) :
    Renderer.Alike (Pairing.logged stores known) ⟨options, host, resolver⟩
      ⟨options, host.logging, resolver'⟩ where
  options := rfl
  same _ := id
  loses :=
    have hkeeps := Renderer.keeps_strays known options host resolver'
    ⟨fun path _ => hkeeps.resolve path, fun lambda text _ => hkeeps.call lambda text,
      fun name _ => hkeeps.partialTemplate name,
      fun source delimiters _ => hkeeps.dynamicTemplate source delimiters⟩
  resolve path := by
    refine .of_scenes ?_
    rintro context _ _ ⟨kept, log⟩ store store' rfl ⟨rfl, hstores⟩
    simp only [Renderer.steps, Renderer.resolve, Context.resolve_logging]
    exact .inr (.inr ⟨.refl (fun _ => rfl) _, trivial, trivial, rfl, hstores⟩)
  call lambda text _ := by
    refine .of_scenes ?_
    rintro context _ _ ⟨kept, log⟩ store store' rfl ⟨rfl, hstores⟩
    obtain ⟨log', hcall, -, hmem⟩ := host.logging_call kept log lambda text
    simp only [Renderer.steps, Renderer.call, hcall]
    by_cases hknown : Strays known (kept, log')
    · exact .inl hknown
    · refine .inr (.inr ⟨.ok ⟨rfl, fun source hsource => ?_⟩, trivial, trivial, rfl, hstores⟩)
      exact Classical.byContradiction fun hunknown => hknown ⟨source, hmem source hsource, hunknown⟩
  partialTemplate name := .ofLoggedStores (hpartial name)
  dynamicTemplate delimiters hknown := .ofLoggedStores (hdynamic _ hknown delimiters)

end Logged

end Mustache
