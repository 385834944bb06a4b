import Mustache.Engine
import Mustache.Proofs.Cache.Fetching
import Mustache.Proofs.Template.Inclusion
import Mustache.Proofs.Tree.Balance

/-!
# Mustache.Proofs.Engine.Errors

What an engine fails with when it looks for a template: the errors of reading files, of parsing,
and of its cache (`Engine.resolver_plain`). All other errors come from rendering itself.
-/

namespace Mustache

theorem error_of_map {α β : Type} {x : Except Error α} {f : α → β} {error : Error}
    (h : x.map f = .error error) : x = .error error := by
  cases x with
  | error _ =>
    cases h
    rfl
  | ok _ => cases h

/-- The errors of reading, parsing and keeping sources. -/
def Error.OfSources : Error → Prop
  | .io _ | .unmatchedClose .. | .unterminatedSection .. | .malformedTag .. | .cacheIo .. => True
  | _ => False

/-- Looking for templates fails with errors of sources. -/
structure Resolver.Plain {σ : Type} (resolver : Resolver σ) : Prop where
  partialTemplate {name store error} :
    (resolver.partialTemplate name store).1 = .error error → error.OfSources
  dynamicTemplate {source delimiters store error} :
    (resolver.dynamicTemplate source delimiters store).1 = .error error → error.OfSources

/-! ## Parsing and compiling -/

theorem Delimiters.exists_check_error {delimiters : Delimiters} (h : ¬ delimiters.Usable) :
    ∃ fault, delimiters.check = .error fault := by
  rw [check]
  split
  · exact ⟨_, rfl⟩
  · rename_i husable
    exact absurd husable h

theorem Tree.parse_error {source : List Char} {delimiters : Delimiters} {error : Error}
    (h : Tree.parse source delimiters = .error error) : error.OfSources := by
  by_cases husable : delimiters.Usable
  · let pair : UsableDelimiters := ⟨delimiters, husable⟩
    replace h : Tree.parse source pair.val = .error error := h
    obtain ⟨items, failure, hscans⟩ := scans_total [] pair source
    obtain ⟨rfl, hbalanced⟩ | ⟨error', hfaulty⟩ := balanced_or_faulty hscans
    · obtain ⟨tree, htree⟩ := parse_of_balanced hscans hbalanced
      rw [htree] at h
      cases h
    · rw [parse_of_faulty hscans hfaulty] at h
      cases h
      cases hfaulty <;> exact trivial
  · obtain ⟨fault, hcheck⟩ := Delimiters.exists_check_error husable
    rw [Tree.parse, Scanner.ofSource, hcheck] at h
    cases h
    exact trivial

namespace PartialSources

structure Plain (partials : PartialSources) : Prop where
  source {name error} : partials.source name = .error error → error.OfSources
  version {name error} : partials.version name = .error error → error.OfSources

end PartialSources

section Compiling

open Node

variable {partials : PartialSources} {delimiters : Delimiters} {error : Error}

theorem Node.lowerAll_error {onPartial : Lowering}
    (honPartial : ∀ name indent known error, onPartial name indent known = .error error →
      error.OfSources) (nodes : List Node) (known : List Dependency) (error : Error)
    (h : lowerAll onPartial nodes known = .error error) : error.OfSources := by
  obtain ⟨name, -, indent, known', h⟩ := exists_of_lowerAll_error known h
  exact honPartial name indent known' error h

theorem recordVersion_error (hpartials : partials.Plain) {name : String}
    {known : List Dependency} (h : recordVersion partials name known = .error error) :
    error.OfSources := by
  have hversion := @hpartials.version
  grind [recordVersion]

theorem lowerInlined_error (hpartials : partials.Plain) (left : Nat) :
    ∀ enclosing name indent known error,
      lowerInlined partials delimiters left enclosing name indent known = .error error →
      error.OfSources := by
  induction left with
  | zero => rintro _ _ _ _ _ ⟨⟩
  | succ left ih =>
    intro enclosing name indent known error h
    have hbody := lowerAll_error (ih (name :: enclosing))
    have hversion := @recordVersion_error _ error hpartials
    have hsource := @hpartials.source
    have hparse := @Tree.parse_error
    simp only [lowerInlined] at h
    grind [lowerReference]

theorem Tree.compile_error (hpartials : partials.Plain) {tree : Tree} {options : CompilerOptions}
    (h : tree.compile delimiters options partials = .error error) : error.OfSources := by
  have hlowered : ∀ known error, lowerAll (if options.includePartialCode then
      lowerInlined partials delimiters maxPartialDepth [] else lowerReference) tree known =
        .error error → error.OfSources := by
    refine lowerAll_error (fun name indent known error h => ?_) tree
    split at h
    · exact lowerInlined_error hpartials _ _ _ _ _ _ h
    · cases h
  grind [Tree.compile]

theorem Template.ofSource_error (hpartials : partials.Plain) {source : String}
    {options : CompilerOptions}
    (h : Template.ofSource source delimiters options partials = .error error) :
    error.OfSources := by
  have hcompile := @Tree.compile_error partials delimiters error hpartials
  grind [Template.ofSource, Tree.parse_error]

theorem Template.isCurrent_error (hpartials : partials.Plain) {t : Template}
    (h : t.isCurrent partials = .error error) : error.OfSources := by
  have hversion := @hpartials.version
  rw [Template.isCurrent] at h
  generalize t.dependencies = dependencies at h
  induction dependencies with
  | nil => cases h
  | cons dependency dependencies ih =>
    rw [Template.allCurrent] at h
    grind

end Compiling

/-! ## Fetching -/

namespace Cache

variable {files : Files} {fingerprint : Fingerprint} {error : Error}

theorem load_error {path : Path} (h : load files path fingerprint = .error error) :
    error.OfSources := by
  grind [load, Error.OfSources]

theorem save_error {path : Path} {t : Template}
    (h : save files path fingerprint t = .error error) : error.OfSources := by
  grind [save, Error.OfSources]

theorem fetch_error {c : Cache} {isCurrent : Template → Except Error Bool}
    {compile : Unit → Except Error Template}
    (hcurrent : ∀ t error, isCurrent t = .error error → error.OfSources)
    (hcompile : ∀ error, compile () = .error error → error.OfSources)
    (h : (c.fetch files fingerprint isCurrent compile).answer = .error error) :
    error.OfSources := by
  have hfetches := c.fetches files fingerprint isCurrent compile
  generalize c.fetch files fingerprint isCurrent compile = fetched at h hfetches
  cases hfetches with
  | uncached => exact hcompile _ (error_of_map h)
  | memoryUnchecked _ _ hunchecked =>
    cases h
    exact hcurrent _ _ hunchecked
  | unreadable _ _ hload =>
    cases h
    exact load_error hload
  | fileUnchecked _ _ _ hunchecked =>
    cases h
    exact hcurrent _ _ hunchecked
  | failed _ hfailed =>
    cases h
    exact hcompile _ hfailed
  | unsaved _ _ _ hsave =>
    cases h
    exact save_error hsave
  | _ => cases h

end Cache

/-! ## Engines -/

namespace Engine

variable {e : Engine} {files : Files} {error : Error} {store : Store}

theorem versionOf_error {path : Path} (h : versionOf files path = .error error) :
    error.OfSources := by
  grind [versionOf, Error.OfSources]

theorem readSource_error {path : Path} (h : readSource files path = .error error) :
    error.OfSources := by
  grind [readSource, Error.OfSources]

theorem partialSources_plain (e : Engine) (files : Files) : (e.partialSources files).Plain where
  source {name error} h := by
    replace h : e.partialSource files name = .error error := h
    grind [partialSource, error_of_map, readSource_error]
  version {name error} h := by
    replace h : e.partialVersion files name = .error error := h
    grind [partialVersion, error_of_map, versionOf_error]

theorem fetch_error {fingerprint : Fingerprint} {delimiters : Delimiters}
    {source : Files → Except Error String}
    (hsource : ∀ error, source store.files = .error error → error.OfSources)
    (h : (e.fetch fingerprint delimiters source store).1 = .error error) : error.OfSources := by
  have hplain := e.partialSources_plain store.files
  refine Cache.fetch_error (fun _ _ => Template.isCurrent_error hplain) (fun error h => ?_) h
  split at h
  · rename_i hfailed
    cases h
    exact hsource _ hfailed
  · exact Template.ofSource_error hplain h

theorem compileFile_error {path : Path} (h : (e.compileFile path store).1 = .error error) :
    error.OfSources := by
  rw [compileFile] at h
  split at h
  · rename_i hversion
    cases h
    exact versionOf_error hversion
  · exact fetch_error (fun _ => readSource_error) h

theorem compileWith_error {source : String} {delimiters : Delimiters}
    (h : (e.compileWith source delimiters store).1 = .error error) : error.OfSources :=
  fetch_error (fun _ hsource => by cases hsource) h

theorem partialTemplate_error {name : String}
    (h : (e.partialTemplate name store).1 = .error error) : error.OfSources := by
  rw [partialTemplate] at h
  split at h
  · exact compileWith_error (error_of_map h)
  · dsimp only at h
    split at h
    · exact compileFile_error (error_of_map h)
    · cases h

theorem resolver_plain (e : Engine) : e.resolver.Plain where
  partialTemplate h := partialTemplate_error (error_of_map h)
  dynamicTemplate h := compileWith_error (error_of_map h)

end Engine

end Mustache
