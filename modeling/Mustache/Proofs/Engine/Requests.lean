import Mustache.Proofs.Engine.Caching
import Mustache.Proofs.Render.Logging

/-!
# Mustache.Proofs.Engine.Requests

What an engine is asked for, and how it answers beside another engine.

`Engine.answer` answers a `Request` of any kind. Two engines are `Engine.Alike` when they compile
alike, over stores that stay related; then they answer all requests alike, up to a lambda that
returns a text which is not known (`Engine.Alike.answer`). An engine is so beside itself, and beside
itself without a cache.
-/

namespace Mustache

variable {η : Type}

/-! ## Requests -/

inductive Request where
  | compile (source : String)
  | render (source : String) (value : Value)
  | renderInContext (source : String) (context : Context)
  | renderNamed (name : String) (value : Value)
  | renderFile (path : Path) (value : Value)
  | clearCache

inductive Outcome where
  | done (answer : Except Error Unit)
  | compiled (answer : Except Error Template)
  | rendered (answer : Except Error String)
  /-- With the context as it is afterwards. -/
  | renderedIn (answer : Except Error String) (context : Context)

/-- The same outcome, templates being compared as `Template.Same` has it. -/
inductive Outcome.Same : Outcome → Outcome → Prop where
  | done (answer : Except Error Unit) : Same (.done answer) (.done answer)
  | compiled {answer answer' : Except Error Template} :
      Matches Template.Same answer answer' → Same (.compiled answer) (.compiled answer')
  | rendered (answer : Except Error String) : Same (.rendered answer) (.rendered answer)
  | renderedIn (answer : Except Error String) (context : Context) :
      Same (.renderedIn answer context) (.renderedIn answer context)

theorem Outcome.Same.rendered_eq {answer answer' : Except Error String}
    (h : (Outcome.rendered answer).Same (.rendered answer')) : answer = answer' := by
  cases h
  rfl

theorem Outcome.Same.renderedIn_eq {answer answer' : Except Error String}
    {context context' : Context}
    (h : (Outcome.renderedIn answer context).Same (.renderedIn answer' context')) :
    answer = answer' := by
  cases h
  rfl

namespace Engine

/-- The answer to a request, with what the host keeps and the store afterwards. -/
def answer (e : Engine) (host : Host η) (request : Request) (kept : η) (store : Store) :
    Outcome × η × Store :=
  match request with
  | .compile source =>
    let (answer, store) := e.compile source store
    (.compiled (answer.map (·.template)), kept, store)
  | .render source value =>
    let (answer, kept, store) := e.render host source value kept store
    (.rendered answer, kept, store)
  | .renderInContext source context =>
    let (answer, scene) := e.renderInContext host source ⟨context, kept, store⟩
    (.renderedIn answer scene.context, scene.host, scene.store)
  | .renderNamed name value =>
    let (answer, kept, store) := e.renderNamed host name value kept store
    (.rendered answer, kept, store)
  | .renderFile path value =>
    let (answer, kept, store) := e.renderFile host path value kept store
    (.rendered answer, kept, store)
  | .clearCache =>
    let (answer, store) := clearCache store
    (.done answer, kept, store)

/-- Two engines that compile alike the texts that are known and the files that can be reached, over
stores that stay related. -/
structure Alike (stores : Store → Store → Prop) (known : String → Prop) (reached : Path → Prop)
    (e e' : Engine) : Prop where
  delimiters : e.options.delimiters = e'.options.delimiters
  raiseOnMiss : e.options.raiseOnMiss = e'.options.raiseOnMiss
  compileWith {source : String} (delimiters : Delimiters) {store store' : Store} :
    known source → stores store store' →
    Matches SharedTemplate.Alike (e.compileWith source delimiters store).1
        (e'.compileWith source delimiters store').1 ∧
      stores (e.compileWith source delimiters store).2 (e'.compileWith source delimiters store').2
  compileFile {path : Path} {store store' : Store} : reached path → stores store store' →
    Matches SharedTemplate.Alike (e.compileFile path store).1 (e'.compileFile path store').1 ∧
      stores (e.compileFile path store).2 (e'.compileFile path store').2
  partialTemplate (name : String) {store store' : Store} : stores store store' →
    Matches (Option.Rel SharedTemplate.Alike) (e.partialTemplate name store).1
        (e'.partialTemplate name store').1 ∧
      stores (e.partialTemplate name store).2 (e'.partialTemplate name store').2
  clearCache {store store' : Store} : stores store store' →
    (clearCache store).1 = (clearCache store').1 ∧
      stores (Engine.clearCache store).2 (Engine.clearCache store').2

end Engine

def Request.Within (known : String → Prop) (reached : Path → Prop) : Request → Prop
  | .compile source | .render source _ | .renderInContext source _ => known source
  | .renderFile path _ => reached path
  | .renderNamed _ _ | .clearCache => True

/-! ## Answers -/

/-! What strays keeps straying. -/

namespace Engine

variable {known : String → Prop} {e : Engine} {host : Host η}

theorem keeps_render (t : Template) :
    Render.Keeps (fun kept _ => Strays known kept) (t.render host.logging e.resolver) :=
  (Renderer.keeps_strays known t.options host e.resolver).execute _ _

theorem keeps_renderInContext (source : String) :
    Render.Keeps (fun kept _ => Strays known kept) (e.renderInContext host.logging source) :=
  .bind (fun _ hstrays => hstrays) fun shared => keeps_render shared.template

theorem keeps_renderPartial (name : String) (value : Value) :
    Render.Keeps (fun kept _ => Strays known kept) (e.renderPartial host.logging name value) := by
  refine .bind (fun _ hstrays => hstrays) fun found => ?_
  cases found with
  | none => exact .pure _
  | some shared => exact (keeps_render shared.template).withFrame value

theorem keeps_renderInFile (path : Path) (value : Value) :
    Render.Keeps (fun kept _ => Strays known kept) (e.renderInFile host.logging path value) :=
  .bind (fun _ hstrays => hstrays) fun shared => (keeps_render shared.template).withFrame value

theorem strays_answer (request : Request) {kept : η × List String} (store : Store)
    (hstrays : Strays known kept) :
    Strays known (e.answer host.logging request kept store).2.1 := by
  cases request with
  | compile source => exact hstrays
  | render source value =>
    exact (keeps_renderInContext source).withFrame value ⟨e.freshContext, kept, store⟩ hstrays
  | renderInContext source context =>
    exact keeps_renderInContext source ⟨context, kept, store⟩ hstrays
  | renderNamed name value =>
    exact keeps_renderPartial name value ⟨e.freshContext, kept, store⟩ hstrays
  | renderFile path value =>
    exact keeps_renderInFile path value ⟨e.freshContext, kept, store⟩ hstrays
  | clearCache => exact hstrays

end Engine

namespace Engine.Alike

variable {stores : Store → Store → Prop} {known : String → Prop} {reached : Path → Prop}
  {e e' : Engine} {host : Host η} (h : Engine.Alike stores known reached e e')
include h

theorem compile {source : String} (hknown : known source) {store store' : Store}
    (hstores : stores store store') :
    Matches SharedTemplate.Alike (e.compile source store).1 (e'.compile source store').1 ∧
      stores (e.compile source store).2 (e'.compile source store').2 := by
  rw [Engine.compile, Engine.compile, ← h.delimiters]
  exact h.compileWith _ hknown hstores

theorem renderer (options : CompilerOptions) :
    Renderer.Alike (Pairing.logged (η := η) stores known) ⟨options, host, e.resolver⟩
      ⟨options, host.logging, e'.resolver⟩ := by
  refine Renderer.alike_of_resolvers options host (fun name store store' hstores => ?_)
    fun source hknown delimiters store store' hstores => ?_
  · obtain ⟨hmatches, hstores'⟩ := h.partialTemplate name hstores
    refine ⟨hmatches.map fun hrel => ?_, hstores'⟩
    cases hrel with
    | none => exact .none
    | some hsame => exact .some hsame.ops
  · obtain ⟨hmatches, hstores'⟩ := h.compileWith delimiters hknown hstores
    exact ⟨hmatches.map fun hsame => hsame.ops, hstores'⟩

theorem render {t t' : Template} (hsame : t.Same t') :
    (Pairing.logged stores known).Alike Eq (t.render host e.resolver)
      (t'.render host.logging e'.resolver) := by
  rw [Template.render, Template.render, hsame.options, hsame.ops]
  exact (h.renderer t'.options).execute _ _

theorem renderInContext {source : String} (hknown : known source) :
    (Pairing.logged stores known).Alike Eq (e.renderInContext host source)
      (e'.renderInContext host.logging source) := by
  have hcompile : (Pairing.logged stores known).Alike SharedTemplate.Alike
      (onStore (η := η) (e.compile source)) (onStore (e'.compile source)) :=
    .ofLoggedStores fun _ _ hstores => h.compile hknown hstores
  exact hcompile.bind (fun _ _ hsame => h.render hsame) fun shared _ => keeps_render shared.template

theorem renderPartial (name : String) (value : Value) :
    (Pairing.logged stores known).Alike Eq (e.renderPartial host name value)
      (e'.renderPartial host.logging name value) := by
  have hpartial : (Pairing.logged stores known).Alike (Option.Rel SharedTemplate.Alike)
      (onStore (η := η) (e.partialTemplate name)) (onStore (e'.partialTemplate name)) :=
    .ofLoggedStores fun _ _ hstores => h.partialTemplate name hstores
  refine hpartial.bind (fun found found' hrel => ?_) fun found => ?_
  · cases hrel with
    | none => exact .pure rfl
    | some hsame => exact (h.render hsame).withFrame rfl
  · cases found with
    | none => exact fun _ => .pure _
    | some shared => exact fun _ => (keeps_render shared.template).withFrame value

theorem renderInFile {path : Path} (hreached : reached path) (value : Value) :
    (Pairing.logged stores known).Alike Eq (e.renderInFile host path value)
      (e'.renderInFile host.logging path value) := by
  have hcompile : (Pairing.logged stores known).Alike SharedTemplate.Alike
      (onStore (η := η) (e.compileFile path)) (onStore (e'.compileFile path)) :=
    .ofLoggedStores fun _ _ hstores => h.compileFile hreached hstores
  exact hcompile.bind (fun _ _ hsame => (h.render hsame).withFrame rfl)
    fun shared _ => (keeps_render shared.template).withFrame value

theorem inFreshContext {body : Render η Store String}
    {body' : Render (η × List String) Store String}
    (hbody : (Pairing.logged stores known).Alike Eq body body') (kept : η) (log : List String)
    {store store' : Store} (hstores : stores store store') :
    let result := e.inFreshContext body kept store
    let result' := e'.inFreshContext body' (kept, log) store'
    Strays known result'.2.1 ∨
      result.1 = result'.1 ∧ result'.2.1.1 = result.2.1 ∧ stores result.2.2 result'.2.2 := by
  have hcontext : e.freshContext = e'.freshContext := by
    rw [freshContext, freshContext, h.raiseOnMiss]
  simp only [Engine.inFreshContext, hcontext]
  refine (hbody.outcome e'.freshContext kept log hstores).imp_right ?_
  rintro ⟨hmatches, -, hkept, hstores'⟩
  exact ⟨hmatches.eq, hkept, hstores'⟩

/-- Both engines answer a request alike, unless a lambda returns a text that is not known. -/
theorem answer (host : Host η) {request : Request} (hrequest : request.Within known reached)
    (kept : η) (log : List String) {store store' : Store} (hstores : stores store store') :
    let result := e.answer host request kept store
    let result' := e'.answer host.logging request (kept, log) store'
    Strays known result'.2.1 ∨
      result.1.Same result'.1 ∧ result'.2.1.1 = result.2.1 ∧ stores result.2.2 result'.2.2 := by
  have hrendered : ∀ {text text' : Except Error String}, text = text' →
      (Outcome.rendered text).Same (.rendered text') := by
    rintro text _ rfl
    exact .rendered text
  have hrenderedIn : ∀ {text text' : Except Error String} {context context' : Context},
      text = text' → context = context' →
      (Outcome.renderedIn text context).Same (.renderedIn text' context') := by
    rintro text _ context _ rfl rfl
    exact .renderedIn text context
  have hdone : ∀ {answer answer' : Except Error Unit}, answer = answer' →
      (Outcome.done answer).Same (.done answer') := by
    rintro answer _ rfl
    exact .done answer
  cases request with
  | compile source =>
    obtain ⟨hmatches, hstores'⟩ := h.compile hrequest hstores
    exact .inr ⟨.compiled (hmatches.map id), rfl, hstores'⟩
  | render source value =>
    exact (h.inFreshContext ((h.renderInContext hrequest).withFrame rfl) kept log
      hstores).imp_right (.imp_left hrendered)
  | renderInContext source context =>
    refine ((h.renderInContext hrequest).outcome context kept log hstores).imp_right ?_
    rintro ⟨hmatches, hcontext, hkept, hstores'⟩
    exact ⟨hrenderedIn hmatches.eq hcontext, hkept, hstores'⟩
  | renderNamed name value =>
    exact (h.inFreshContext (h.renderPartial name value) kept log hstores).imp_right
      (.imp_left hrendered)
  | renderFile path value =>
    exact (h.inFreshContext (h.renderInFile hrequest value) kept log hstores).imp_right
      (.imp_left hrendered)
  | clearCache =>
    obtain ⟨hanswer, hstores'⟩ := h.clearCache hstores
    exact .inr ⟨hdone hanswer, rfl, hstores'⟩

end Engine.Alike

/-! ## Engines beside themselves -/

theorem SharedTemplate.Alike.refl (shared : SharedTemplate) : shared.Alike shared :=
  Template.Same.refl shared.template

theorem Engine.alike_self (e : Engine) :
    Engine.Alike Eq (fun _ => True) (fun _ => True) e e where
  delimiters := rfl
  raiseOnMiss := rfl
  compileWith delimiters := by
    rintro store _ - rfl
    exact ⟨.refl .refl _, rfl⟩
  compileFile := by
    rintro path store _ - rfl
    exact ⟨.refl .refl _, rfl⟩
  partialTemplate name := by
    rintro store _ rfl
    refine ⟨.refl (fun found => ?_) _, rfl⟩
    cases found with
    | none => exact .none
    | some shared => exact .some (.refl shared)
  clearCache := by
    rintro store _ rfl
    exact ⟨rfl, rfl⟩

theorem SharedTemplate.alike_of_eq {shared shared' : SharedTemplate}
    (h : shared.template = shared'.template) : shared.Alike shared' := by
  rw [SharedTemplate.Alike, h]
  exact .refl _

theorem Uncached.Gives.matches {α β : Type} {files : Files} {view : α → β} {R : α → α → Prop}
    {result result' : Except Error α × Store} {answer : Except Error β}
    (h : Uncached.Gives files view result answer) (h' : Uncached.Gives files view result' answer)
    (hR : ∀ {a b}, view a = view b → R a b) : Matches R result.1 result'.1 := by
  have hviews : result.1.map view = result'.1.map view := h.1.trans h'.1.symm
  rcases result with ⟨error | a, next⟩ <;> rcases result' with ⟨error' | b, next'⟩
  · cases hviews
    exact .error error
  · cases hviews
  · cases hviews
  · exact .ok (hR (Except.ok.inj hviews))

theorem Engine.alike_uncached (e : Engine) (files : Files) (known : String → Prop)
    (reached : Path → Prop) :
    Engine.Alike (fun store store' => Uncached files store ∧ Uncached files store') known reached
      e e.withoutCache where
  delimiters := rfl
  raiseOnMiss := rfl
  compileWith {source} delimiters store store' _ h := by
    have hgives := compileWith_uncached h.1 source delimiters (e := e)
    have hgives' := compileWith_uncached h.2 source delimiters (e := e.withoutCache)
    exact ⟨hgives.matches hgives' SharedTemplate.alike_of_eq, hgives.2, hgives'.2⟩
  compileFile {path} store store' _ h := by
    have hgives := compileFile_uncached h.1 path (e := e)
    have hgives' := compileFile_uncached h.2 path (e := e.withoutCache)
    exact ⟨hgives.matches hgives' SharedTemplate.alike_of_eq, hgives.2, hgives'.2⟩
  partialTemplate name store store' h := by
    have hgives := partialTemplate_uncached h.1 name (e := e)
    have hgives' := partialTemplate_uncached h.2 name (e := e.withoutCache)
    refine ⟨hgives.matches hgives' fun {a b} hview => ?_, hgives.2, hgives'.2⟩
    rcases a with _ | a <;> rcases b with _ | b
    · exact .none
    · cases hview
    · cases hview
    · exact .some (SharedTemplate.alike_of_eq (Option.some.inj hview))
  clearCache {store store'} h := by
    have hclear : ∀ {store}, Uncached files store →
        (clearCache store).1 = .ok () ∧ Uncached files (Engine.clearCache store).2 := by
      intro store h
      simp only [clearCache, Cache.clear, h.mode]
      exact ⟨trivial, h.mode, h.files⟩
    exact ⟨(hclear h.1).1.trans (hclear h.2).1.symm, (hclear h.1).2, (hclear h.2).2⟩

/-- Keeping templates makes no difference, where requests do not reach into the cache. -/
theorem Engine.Fits.alike {w : World} {base : Files} {e : Engine} (hw : w.Distinct)
    (hbase : base ∈ w.moments) (he : e.Fits w) :
    Engine.Alike (Beside w base e.options.cacheMode) (· ∈ w.texts)
      (fun path => w.paths path ∧ path.Apart w.directory) e e.withoutCache where
  delimiters := rfl
  raiseOnMiss := rfl
  compileWith delimiters _ _ hsource h := compileWith_beside hw hbase he h hsource delimiters
  compileFile hpath h :=
    compileFile_beside hw hbase he h hpath.1 (h.coherent.files.find_eq hpath.2)
  partialTemplate name _ _ h := partialTemplate_beside hw hbase he h name
  clearCache {store store'} h := by
    obtain ⟨left, hclear, hleft⟩ := h.coherent.files.clear store.cache fun _ hmode =>
      he.lies hbase (h.coherent.mode ▸ hmode)
    have hclear' : store'.cache.clear store'.files
        = (.ok (), store'.cache.clearMemory, store'.files) := by
      rw [Cache.clear, h.uncached.mode]
    simp only [clearCache, hclear, hclear']
    refine ⟨trivial, ⟨h.coherent.mode, ?_, hleft⟩, h.uncached.mode, h.uncached.files⟩
    exact fun entry hentry => by cases hentry

end Mustache
