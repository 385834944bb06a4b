import Mustache.Config
import Mustache.Template.Render

/-!
# Mustache.Engine

An engine compiles and renders templates with one set of options. Partials are registered with it
or lie in files, the registered ones first, and compiled templates are kept in a `Cache`.

The cache and the files change while an engine is at work: they are its `Store`, which every
operation takes and gives back, whether it succeeds or not.
-/

namespace Mustache

structure Engine where
  options : Options
  /-- Registered partials, each name once. -/
  partials : List (String × String)

structure Store where
  cache : Cache
  files : Files

namespace Engine

def create (options : Options) (files : Files) : Except Error (Engine × Store) :=
  match Cache.create options.cacheMode files with
  | .error error => .error error
  | .ok (cache, files) => .ok (⟨options, []⟩, ⟨cache, files⟩)

/-- An engine for a directory, with the options of its config file. -/
def load (root : Path) (files : Files) : Except Error (Engine × Store) :=
  match Config.load files root with
  | .error error => .error error
  | .ok config => create (.ofConfig root config) files

/-- Registers a partial. Templates in memory may hold an older one, so they are forgotten. -/
def addPartial (e : Engine) (store : Store) (name source : String) : Engine × Store :=
  ({ e with partials := (name, source) :: e.partials.filter (·.1 != name) },
    { store with cache := store.cache.clearMemory })

def registered (e : Engine) (name : String) : Option String :=
  match e.partials.find? (·.1 == name) with
  | some (_, source) => some source
  | none => none

/-! ## Partials -/

def readSource (files : Files) (path : Path) : Except Error String :=
  match files.readText path with
  | .error fault => .error (.io fault)
  | .ok source => .ok source

def versionOf (files : Files) (path : Path) : Except Error SourceVersion :=
  match files.version path with
  | .error fault => .error (.io fault)
  | .ok (modified, size) => .ok (.file path (UInt64.ofNat modified) (UInt64.ofNat size))

def partialSource (e : Engine) (files : Files) (name : String) : Except Error (Option String) :=
  match e.registered name with
  | some source => .ok (some source)
  | none =>
    let path := e.options.templateFile name
    if files.isFile path then (readSource files path).map some else .ok none

def partialVersion (e : Engine) (files : Files) (name : String) :
    Except Error (Option SourceVersion) :=
  match e.registered name with
  | some source => .ok (some (.ofText source))
  | none =>
    let path := e.options.templateFile name
    if files.isFile path then (versionOf files path).map some else .ok none

def partialSources (e : Engine) (files : Files) : PartialSources :=
  ⟨e.partialSource files, e.partialVersion files⟩

/-! ## Compiling -/

def fetch (e : Engine) (fingerprint : Fingerprint) (delimiters : Delimiters)
    (source : Files → Except Error String) (store : Store) :
    Except Error SharedTemplate × Store :=
  let partials := e.partialSources store.files
  let fetched := store.cache.fetch store.files fingerprint (·.isCurrent partials) fun _ =>
    match source store.files with
    | .error error => .error error
    | .ok source => Template.ofSource source delimiters e.options.compiler partials
  (fetched.answer, ⟨fetched.cache, fetched.files⟩)

def compileWith (e : Engine) (source : String) (delimiters : Delimiters) (store : Store) :
    Except Error SharedTemplate × Store :=
  e.fetch (.ofText source delimiters e.options.compiler) delimiters (fun _ => .ok source) store

def compile (e : Engine) (source : String) (store : Store) :
    Except Error SharedTemplate × Store :=
  e.compileWith source e.options.delimiters store

/-- The template in a file, told from others by its path, time of modification and size. -/
def compileFile (e : Engine) (path : Path) (store : Store) :
    Except Error SharedTemplate × Store :=
  match versionOf store.files path with
  | .error error => (.error error, store)
  | .ok version =>
    e.fetch ⟨version, e.options.delimiters, e.options.compiler⟩ e.options.delimiters
      (fun files => readSource files path) store

def partialTemplate (e : Engine) (name : String) (store : Store) :
    Except Error (Option SharedTemplate) × Store :=
  match e.registered name with
  | some source =>
    let (answer, store) := e.compile source store
    (answer.map some, store)
  | none =>
    let path := e.options.templateFile name
    if store.files.isFile path then
      let (answer, store) := e.compileFile path store
      (answer.map some, store)
    else (.ok none, store)

def tokens (e : Engine) (source : String) : Except Error Tree :=
  Tree.parse source.toList e.options.delimiters

def compileToText (e : Engine) (source : String) (store : Store) : Except Error String × Store :=
  let (answer, store) := e.compile source store
  (answer.map (·.template.text), store)

def clearCache (store : Store) : Except Error Unit × Store :=
  let (answer, cache, files) := store.cache.clear store.files
  (answer, ⟨cache, files⟩)

/-! ## Rendering -/

variable {η : Type}

/-- Partials and text from lambdas are compiled through the cache. -/
def resolver (e : Engine) : Resolver Store where
  partialTemplate name store :=
    let (answer, store) := e.partialTemplate name store
    (answer.map fun found => found.map (·.template), store)
  dynamicTemplate source delimiters store :=
    let (answer, store) := e.compileWith source delimiters store
    (answer.map (·.template), store)

def freshContext (e : Engine) : Context := Context.empty.withPolicy e.options.raiseOnMiss

def onStore {α : Type} (operation : Store → Except Error α × Store) : Render η Store α :=
  fun scene =>
    let (answer, store) := operation scene.store
    (answer, { scene with store := store })

def renderInContext (e : Engine) (host : Host η) (source : String) : Render η Store String := do
  let shared ← onStore (e.compile source)
  shared.template.render host e.resolver

/-- Renders the template of a name; a name without one renders as nothing. -/
def renderPartial (e : Engine) (host : Host η) (name : String) (value : Value) :
    Render η Store String := do
  match ← onStore (e.partialTemplate name) with
  | none => pure ""
  | some shared => Renderer.withFrame value (shared.template.render host e.resolver)

def renderInFile (e : Engine) (host : Host η) (path : Path) (value : Value) :
    Render η Store String := do
  let shared ← onStore (e.compileFile path)
  Renderer.withFrame value (shared.template.render host e.resolver)

def inFreshContext (e : Engine) (body : Render η Store String) (kept : η) (store : Store) :
    Except Error String × η × Store :=
  let (answer, scene) := body ⟨e.freshContext, kept, store⟩
  (answer, scene.host, scene.store)

def render (e : Engine) (host : Host η) (source : String) (value : Value) (kept : η)
    (store : Store) : Except Error String × η × Store :=
  e.inFreshContext (Renderer.withFrame value (e.renderInContext host source)) kept store

def renderNamed (e : Engine) (host : Host η) (name : String) (value : Value) (kept : η)
    (store : Store) : Except Error String × η × Store :=
  e.inFreshContext (e.renderPartial host name value) kept store

def renderFile (e : Engine) (host : Host η) (path : Path) (value : Value) (kept : η)
    (store : Store) : Except Error String × η × Store :=
  e.inFreshContext (e.renderInFile host path value) kept store

end Engine

end Mustache
