import Mustache.Engine
import Mustache.Proofs.Render.Correctness

/-!
# Mustache.Proofs.Engine.Uncached

Engines that keep no templates.

Whatever such an engine is asked for is compiled from the files as they are, and neither the files
nor the way of keeping templates change (`Uncached`). So rendering with it follows the interpreter
that reads its partials (`Engine.follows`).
-/

namespace Mustache

variable {η : Type} {e : Engine} {files : Files}

structure Uncached (files : Files) (store : Store) : Prop where
  mode : store.cache.mode = .disabled
  files : store.files = files

def Store.plain (files : Files) : Store := ⟨.ofMode .disabled, files⟩

theorem Uncached.plain (files : Files) : Uncached files (.plain files) := ⟨rfl, rfl⟩

/-- What an uncached operation answers, and that the store stays uncached. -/
def Uncached.Gives {α β : Type} (files : Files) (view : α → β)
    (result : Except Error α × Store) (answer : Except Error β) : Prop :=
  result.1.map view = answer ∧ Uncached files result.2

theorem view_of_map_eq {α β : Type} {view : α → β} {result : Except Error α}
    {answer : Except Error β} (h : result.map view = answer) :
    match answer with
    | .error error => result = .error error
    | .ok b => ∃ a, view a = b ∧ result = .ok a := by
  subst h
  cases result with
  | error error => rfl
  | ok a => exact ⟨a, rfl, rfl⟩

namespace Engine

def compileRead (e : Engine) (files : Files) (delimiters : Delimiters) :
    Except Error String → Except Error Template
  | .error error => .error error
  | .ok source =>
    Template.ofSource source delimiters e.options.compiler (e.partialSources files)

theorem fetch_uncached {store : Store} (h : Uncached files store) (fingerprint : Fingerprint)
    (delimiters : Delimiters) (source : Files → Except Error String) :
    Uncached.Gives files SharedTemplate.template (e.fetch fingerprint delimiters source store)
      (e.compileRead files delimiters (source files)) := by
  obtain ⟨hmode, rfl⟩ := h
  simp only [Uncached.Gives, fetch, Cache.fetch, hmode, compileRead]
  cases source store.files with
  | error error => exact ⟨rfl, hmode, rfl⟩
  | ok source =>
    dsimp only
    cases Template.ofSource source delimiters e.options.compiler (e.partialSources store.files) with
    | error error => exact ⟨rfl, hmode, rfl⟩
    | ok template => exact ⟨rfl, hmode, rfl⟩

theorem compileWith_uncached {store : Store} (h : Uncached files store) (source : String)
    (delimiters : Delimiters) :
    Uncached.Gives files SharedTemplate.template (e.compileWith source delimiters store)
      (Template.ofSource source delimiters e.options.compiler (e.partialSources files)) :=
  fetch_uncached h _ _ _

theorem exists_versionOf {path : Path} (h : files.isFile path = true) :
    ∃ version, versionOf files path = .ok version := by
  rw [Files.isFile] at h
  rw [versionOf, Files.version]
  split at h
  · rename_i hfind
    rw [hfind]
    exact ⟨_, rfl⟩
  · cases h

theorem compileFile_uncached {store : Store} (h : Uncached files store) (path : Path) :
    Uncached.Gives files SharedTemplate.template (e.compileFile path store)
      (match versionOf files path with
      | .error error => .error error
      | .ok _ => e.compileRead files e.options.delimiters (readSource files path)) := by
  have hfetch := fun version : SourceVersion => fetch_uncached h
    ⟨version, e.options.delimiters, e.options.compiler⟩ e.options.delimiters
    (fun files => readSource files path) (e := e)
  rw [compileFile, h.files]
  cases versionOf files path with
  | error error => exact ⟨rfl, h⟩
  | ok version => exact hfetch version

theorem partialTemplate_uncached {store : Store} (h : Uncached files store) (name : String) :
    Uncached.Gives files (Option.map SharedTemplate.template) (e.partialTemplate name store)
      (match e.partialSource files name with
      | .error error => .error error
      | .ok none => .ok none
      | .ok (some source) => (Template.ofSource source e.options.delimiters e.options.compiler
          (e.partialSources files)).map some) := by
  have hmap : ∀ {result : Except Error SharedTemplate × Store} {answer},
      Uncached.Gives files SharedTemplate.template result answer →
      Uncached.Gives files (Option.map SharedTemplate.template)
        (result.1.map some, result.2) (answer.map some) := by
    rintro ⟨_ | shared, store'⟩ _ ⟨rfl, hstore⟩ <;> exact ⟨rfl, hstore⟩
  rw [partialTemplate, partialSource]
  cases hname : e.registered name with
  | some source => exact hmap (compileWith_uncached h source e.options.delimiters)
  | none =>
    dsimp only
    rw [h.files]
    split
    · rename_i hfile
      obtain ⟨version, hversion⟩ := exists_versionOf hfile
      have hcompile := compileFile_uncached h (e.options.templateFile name) (e := e)
      rw [hversion] at hcompile
      cases hread : readSource files (e.options.templateFile name) with
      | error error =>
        rw [hread] at hcompile
        exact hmap hcompile
      | ok source =>
        rw [hread] at hcompile
        exact hmap hcompile
    · exact ⟨rfl, h⟩

/-- What interprets the trees that the engine would compile. -/
def interpreter (e : Engine) (host : Host η) (files : Files) : Interpreter η where
  host := host
  disableLambdas := e.options.compiler.disableLambdas
  disableIndentation := e.options.compiler.disableIndentation
  delimiters := e.options.delimiters
  source := e.partialSource files

theorem follows (e : Engine) (host : Host η) (files : Files) :
    (Renderer.mk e.options.compiler host e.resolver).Follows (e.interpreter host files)
      (e.partialSources files) (Uncached files) where
  host := rfl
  lambdas := rfl
  indentation := rfl
  partialTemplate name hstore := by
    obtain ⟨hanswer, hstore'⟩ := partialTemplate_uncached hstore name (e := e)
    exact ⟨hstore', hanswer⟩
  dynamicTemplate source delimiters hstore := by
    obtain ⟨hanswer, hstore'⟩ := compileWith_uncached hstore source delimiters (e := e)
    exact ⟨hstore', hanswer⟩

end Engine

theorem scoped_true (host : Host η) : Scoped host fun _ _ => True where
  resolve _ _ := trivial
  push _ _ _ _ := trivial
  pop _ _ := trivial
  enter _ _ := trivial

end Mustache
