import Mustache.Proofs.Engine.Caching

/-!
# Mustache.Proofs.Engine.Reuse

What a new engine does with a template that another one has compiled into the same directory.

A fetch that compiles saves the template (`Cache.save_of_fetch`), and a cache that has nothing in
memory reads it back, unless it nests too deeply for the reader (`Cache.Works.fetch_put`). So a
template that is deep enough is compiled and written again by every engine that needs it
(`Engine.compile_again`).
-/

namespace Mustache

namespace Cache

section Fetch

variable {c : Cache} {files : Files} {directory : Path} {d : Place} {fingerprint : Fingerprint}
  {isCurrent : Template → Except Error Bool} {compile : Unit → Except Error Template}

theorem fetch_eq_or (hmode : c.mode = .durable directory) :
    c.fetch files fingerprint isCurrent compile = c.recompile files fingerprint compile ∨
      (c.fetch files fingerprint isCurrent compile).cache.stats.compilations =
        c.stats.compilations := by
  have hdurable : c.fetchDurable files fingerprint isCurrent compile =
      c.recompile files fingerprint compile ∨
        (c.fetchDurable files fingerprint isCurrent compile).cache.stats.compilations =
          c.stats.compilations := by
    rw [fetchDurable]
    split
    · exact .inl rfl
    · split
      · exact .inr rfl
      · exact .inl rfl
      · split
        · exact .inr rfl
        · exact .inl rfl
        · exact .inr rfl
  rw [fetch, hmode]
  dsimp only
  split
  · exact hdurable
  · split
    · exact .inr rfl
    · exact hdurable
    · exact .inr rfl

theorem save_of_fetch {shared : SharedTemplate} (hmode : c.mode = .durable directory)
    (hok : (c.fetch files fingerprint isCurrent compile).answer = .ok shared)
    (hcount : (c.fetch files fingerprint isCurrent compile).cache.stats.compilations =
      c.stats.compilations + 1) :
    compile () = .ok shared.template ∧
      save files (entryFile directory fingerprint) fingerprint shared.template =
        .ok (c.fetch files fingerprint isCurrent compile).files := by
  have hpath : c.countCompilation.entryPath fingerprint =
      some (entryFile directory fingerprint) := by
    rw [entryPath, countCompilation, hmode]
  rcases fetch_eq_or hmode with hfetch | hfetch
  · rw [hfetch] at hok ⊢
    rw [recompile] at hok ⊢
    cases hcompile : compile () with
    | error error =>
      rw [hcompile] at hok
      cases hok
    | ok t =>
      simp only [hcompile, hpath] at hok ⊢
      cases hsave : save files (entryFile directory fingerprint) fingerprint t with
      | error error =>
        rw [hsave] at hok
        cases hok
      | ok saved =>
        simp only [hsave] at hok ⊢
        cases hok
        exact ⟨rfl, hsave⟩
  · omega

variable {template : Template}

theorem Works.put (h : Works files directory d fingerprint) (template : Template) :
    Works (files.put (d ++ [entryName fingerprint]) (CacheEntry.fileAt d fingerprint template).2)
      directory d fingerprint where
  found := find_directory_put (Place.append_name_ne_nil _ _) _ h.entry h.found
  draft := by
    rw [Files.entryAt_put (Place.append_name_ne_nil _ _), if_neg, h.draft]
    simpa using draftName_ne_entryName fingerprint fingerprint
  entry := by
    rw [Files.entryAt_put (Place.append_name_ne_nil _ _), if_pos rfl, CacheEntry.fileAt]
    simp

theorem Works.load_put (h : Works files directory d fingerprint) (template : Template) :
    load (files.put (d ++ [entryName fingerprint]) (CacheEntry.fileAt d fingerprint template).2)
        (entryFile directory fingerprint) fingerprint =
      .ok (if template.toJson.depth < Json.maxDepth then some template else none) := by
  have hentry : (files.put (d ++ [entryName fingerprint])
      (CacheEntry.fileAt d fingerprint template).2).entryAt (d ++ [entryName fingerprint]) =
        some (CacheEntry.fileAt d fingerprint template).2 := by
    rw [Files.entryAt_put (Place.append_name_ne_nil _ _), if_pos rfl]
  rw [load_of_entryAt (h.put template).found hentry]
  simp

variable (c isCurrent compile) in
/-- Another cache reads back what was saved, or compiles it again. -/
theorem Works.fetch_put (h : Works files directory d fingerprint)
    (hmode : c.mode = .durable directory) (hmemory : c.inMemory? fingerprint = none)
    (hcompile : compile () = .ok template) (hcurrent : isCurrent template = .ok true) :
    let fetched := c.fetch (files.put (d ++ [entryName fingerprint])
      (CacheEntry.fileAt d fingerprint template).2) fingerprint isCurrent compile
    ∃ shared, fetched.answer = .ok shared ∧ shared.template = template ∧
      fetched.cache.stats =
        if template.toJson.depth < Json.maxDepth then c.countDurableHit.stats
        else c.countCompilation.stats := by
  have hpath : c.entryPath fingerprint = some (entryFile directory fingerprint) := by
    rw [entryPath, hmode]
  have hpath' : c.countCompilation.entryPath fingerprint =
      some (entryFile directory fingerprint) := hpath
  simp only [fetch, hmode, hmemory, fetchDurable, hpath, h.load_put]
  by_cases hdepth : template.toJson.depth < Json.maxDepth
  · simp only [if_pos hdepth, hcurrent]
    exact ⟨_, rfl, rfl, rfl⟩
  · simp only [if_neg hdepth, recompile, hcompile, hpath', (h.put template).save_eq]
    exact ⟨_, rfl, rfl, rfl⟩

variable (isCurrent compile) in
theorem Works.fetch_missing (h : Works files directory d fingerprint)
    (hmode : c.mode = .durable directory) (hmemory : c.inMemory? fingerprint = none)
    (hnone : files.entryAt (d ++ [entryName fingerprint]) = none)
    (hcompile : compile () = .ok template) :
    let fetched := c.fetch files fingerprint isCurrent compile
    ∃ shared, fetched.answer = .ok shared ∧ shared.template = template ∧
      fetched.cache.stats.compilations = c.stats.compilations + 1 := by
  have hload := load_of_missing h.found hnone
  have hpath : c.entryPath fingerprint = some (entryFile directory fingerprint) := by
    rw [entryPath, hmode]
  have hpath' : c.countCompilation.entryPath fingerprint =
      some (entryFile directory fingerprint) := hpath
  simp only [fetch, hmode, hmemory, fetchDurable, hpath, hload, recompile, hcompile, hpath',
    h.save_eq]
  exact ⟨_, rfl, rfl, rfl⟩

end Fetch

end Cache

namespace Engine

theorem compile_eq_fetch (e : Engine) (source : String) (store : Store) :
    e.compile source store =
      let partials := e.partialSources store.files
      let fetched := store.cache.fetch store.files
        (.ofText source e.options.delimiters e.options.compiler) (·.isCurrent partials)
        fun _ => Template.ofSource source e.options.delimiters e.options.compiler partials
      (fetched.answer, ⟨fetched.cache, fetched.files⟩) := rfl

section Compile

variable {e : Engine} {directory : Path} {d : Place} {source : String} {store store' : Store}
  {shared : SharedTemplate}

def fingerprintOf (e : Engine) (source : String) : Fingerprint :=
  .ofText source e.options.delimiters e.options.compiler

theorem compile_saves (hstore : store.cache.mode = .durable directory)
    (hworks : Cache.Works store.files directory d (e.fingerprintOf source))
    (hcompile : e.compile source store = (.ok shared, store'))
    (hcompiled : store'.cache.stats.compilations = store.cache.stats.compilations + 1) :
    Template.ofSource source e.options.delimiters e.options.compiler
        (e.partialSources store.files) = .ok shared.template ∧
      store'.files = store.files.put (d ++ [Cache.entryName (e.fingerprintOf source)])
        (CacheEntry.fileAt d (e.fingerprintOf source) shared.template).2 := by
  rw [compile_eq_fetch] at hcompile
  obtain ⟨hanswer, rfl⟩ := Prod.mk.inj hcompile
  obtain ⟨hsource, hsave⟩ := Cache.save_of_fetch hstore hanswer hcompiled
  exact ⟨hsource, Except.ok.inj (hsave.symm.trans (hworks.save_eq shared.template))⟩

variable (store) in
/-- An engine that has nothing in memory reads an entry back, or compiles it again. -/
theorem compile_put {template : Template} {files : Files}
    (hstore : store.cache.mode = .durable directory) (hmemory : store.cache.stored = [])
    (hworks : Cache.Works files directory d (e.fingerprintOf source))
    (hfiles : store.files = files.put (d ++ [Cache.entryName (e.fingerprintOf source)])
      (CacheEntry.fileAt d (e.fingerprintOf source) template).2)
    (hsource : Template.ofSource source e.options.delimiters e.options.compiler
      (e.partialSources store.files) = .ok template) :
    ∃ shared, (e.compile source store).1 = .ok shared ∧ shared.template = template ∧
      (e.compile source store).2.cache.stats =
        if template.toJson.depth < Json.maxDepth then store.cache.countDurableHit.stats
        else store.cache.countCompilation.stats := by
  have hfetch := hworks.fetch_put store.cache (·.isCurrent (e.partialSources store.files))
    (fun _ => Template.ofSource source e.options.delimiters e.options.compiler
      (e.partialSources store.files)) hstore (Cache.inMemory?_of_stored hmemory _) hsource
    (isCurrent_of_ofSource hsource)
  rw [← hfiles] at hfetch
  exact hfetch

/-- An engine with partials that were registered one after the other. -/
def withPartials (options : Options) (partials : List (String × String)) : Engine where
  options := options
  partials := partials.foldl (fun registered (name, source) =>
    (name, source) :: registered.filter (·.1 != name)) []

def createWith (options : Options) (partials : List (String × String)) (files : Files) :
    Except Error (Engine × Store) :=
  (Engine.create options files).map fun made =>
    partials.foldl (fun (e, store) (name, source) => e.addPartial store name source) made

/-- Registering partials changes no store that has nothing in memory. -/
theorem createWith_eq {options : Options} (partials : List (String × String)) {files : Files}
    (hmode : options.cacheMode = .durable directory)
    (hdirectory : files.createDirectory directory = .ok files) :
    createWith options partials files =
      .ok (withPartials options partials, ⟨.ofMode (.durable directory), files⟩) := by
  have hregister : ∀ registered, partials.foldl
      (fun (e, store) (name, source) => e.addPartial store name source)
      ((⟨options, registered⟩, ⟨.ofMode (.durable directory), files⟩) : Engine × Store) =
        (⟨options, partials.foldl (fun registered (name, source) =>
          (name, source) :: registered.filter (·.1 != name)) registered⟩,
          ⟨.ofMode (.durable directory), files⟩) := by
    induction partials with
    | nil => exact fun _ => rfl
    | cons named partials ih => exact fun _ => ih _
  simp only [createWith, create, hmode, Cache.create, hdirectory]
  exact congrArg Except.ok (hregister [])

variable (store) in
theorem compile_missing {template : Template} (hstore : store.cache.mode = .durable directory)
    (hmemory : store.cache.stored = [])
    (hworks : Cache.Works store.files directory d (e.fingerprintOf source))
    (hnone : store.files.entryAt (d ++ [Cache.entryName (e.fingerprintOf source)]) = none)
    (hsource : Template.ofSource source e.options.delimiters e.options.compiler
      (e.partialSources store.files) = .ok template) :
    ∃ shared store', e.compile source store = (.ok shared, store') ∧ shared.template = template ∧
      store'.cache.stats.compilations = store.cache.stats.compilations + 1 := by
  obtain ⟨shared, hanswer, htemplate, hcount⟩ := hworks.fetch_missing
    (·.isCurrent (e.partialSources store.files))
    (fun _ => Template.ofSource source e.options.delimiters e.options.compiler
      (e.partialSources store.files)) hstore (Cache.inMemory?_of_stored hmemory _) hnone hsource
  exact ⟨shared, _, Prod.ext hanswer rfl, htemplate, hcount⟩

/-- A template that an engine has compiled into a directory that works, and that is then asked of
a new engine with the same options and the same partials: it is the same template, and it is read
from its file unless it nests too deeply for the reader. -/
theorem compile_again (partials : List (String × String))
    (hmode : e.options.cacheMode = .durable directory)
    (hstore : store.cache.mode = .durable directory)
    (hworks : Cache.Works store.files directory d (e.fingerprintOf source))
    (hcompile : e.compile source store = (.ok shared, store'))
    (hcompiled : store'.cache.stats.compilations = store.cache.stats.compilations + 1)
    (hpartials : (withPartials e.options partials).partialSources store'.files =
      e.partialSources store.files) :
    ∃ e' fresh again, createWith e.options partials store'.files = .ok (e', fresh) ∧
      (e'.compile source fresh).1 = .ok again ∧ again.template = shared.template ∧
      (e'.compile source fresh).2.cache.stats =
        if shared.template.toJson.depth < Json.maxDepth then ⟨0, 1, 0⟩ else ⟨0, 0, 1⟩ := by
  obtain ⟨hsource, hfiles⟩ := compile_saves hstore hworks hcompile hcompiled
  have hdirectory := createDirectory_of_find (hworks.put shared.template).found
  rw [← hpartials] at hsource
  rw [← hfiles] at hdirectory
  obtain ⟨again, hagain⟩ := compile_put ⟨.ofMode (.durable directory), store'.files⟩
    (e := withPartials e.options partials) rfl rfl hworks hfiles hsource
  exact ⟨_, _, again, createWith_eq partials hmode hdirectory, hagain⟩

/-- The first engine that compiles into an empty directory, where no template is read from. -/
theorem compile_first {options : Options} {partials : List (String × String)} {files : Files}
    {template : Template} (hfind : files.find directory = .ok (d, .directory))
    (hempty : files.inside d = []) (havoids : ∀ name, (options.templateFile name).Avoids d)
    (hsource : Template.ofSource source options.delimiters options.compiler
      ((withPartials options partials).partialSources files) = .ok template) :
    Cache.Works files directory d ((withPartials options partials).fingerprintOf source) ∧
    ∃ shared store', (withPartials options partials).compile source
        ⟨.ofMode (.durable directory), files⟩ = (.ok shared, store') ∧
      shared.template = template ∧ store'.cache.stats.compilations = 1 ∧
      (withPartials options partials).partialSources store'.files =
        (withPartials options partials).partialSources files := by
  have hclean : Overlay (fun _ _ => True) d files files := .refl hempty
  have hworks := hclean.works hfind ((withPartials options partials).fingerprintOf source)
  obtain ⟨shared, store', hcompile, htemplate, hcount⟩ := compile_missing
    ⟨.ofMode (.durable directory), files⟩ rfl rfl hworks
    (hclean.base_below (Place.below_append_name ..)) hsource
  refine ⟨hworks, shared, store', hcompile, htemplate, hcount, ?_⟩
  obtain ⟨-, hfiles⟩ := compile_saves rfl hworks hcompile hcount
  rw [hfiles]
  exact partialSources_eq havoids (hclean.put trivial)

/-- Many partials, each of which includes the next one in a section: the second engine compiles
again what the first one has compiled. -/
theorem compile_again_deep :
    let partials := (List.range 32).map fun n =>
      (toString n, "[#a][>" ++ toString (n + 1) ++ "][/a]")
    let options : Options :=
      { cacheDirectory := some ⟨"cache"⟩
        delimiters := ⟨"[", "]"⟩
        compiler := { includePartialCode := true } }
    let e := withPartials options partials
    let store : Store := ⟨.ofMode (.durable ⟨"cache"⟩), ⟨[(["cache"], .directory)]⟩⟩
    options.cacheMode = .durable ⟨"cache"⟩ ∧
    Cache.Works store.files ⟨"cache"⟩ ["cache"] (e.fingerprintOf "[>0]") ∧
    ∃ shared store', e.compile "[>0]" store = (.ok shared, store') ∧
      store'.cache.stats.compilations = 1 ∧
      e.partialSources store'.files = e.partialSources store.files ∧
      ∃ e' fresh again, createWith options partials store'.files = .ok (e', fresh) ∧
        (e'.compile "[>0]" fresh).1 = .ok again ∧ again.template = shared.template ∧
        (e'.compile "[>0]" fresh).2.cache.stats = ⟨0, 0, 1⟩ := by
  intro partials options e store
  have hdeep : (Template.ofSource "[>0]" options.delimiters options.compiler
      (e.partialSources store.files)).toOption.map
        (fun t => decide (t.toJson.depth < Json.maxDepth)) = some false := by decide +kernel
  cases hsource : Template.ofSource "[>0]" options.delimiters options.compiler
      (e.partialSources store.files) with
  | error error =>
    rw [hsource] at hdeep
    cases hdeep
  | ok template =>
    rw [hsource] at hdeep
    have hfind : store.files.find ⟨"cache"⟩ = .ok (["cache"], .directory) :=
      Files.find_eq_ok_iff.2 ⟨by decide +kernel, rfl⟩
    have havoids (name : String) : (options.templateFile name).Avoids ["cache"] :=
      Options.avoids_templateFile (by decide) (by decide) (by decide) (by decide) name
    obtain ⟨hworks, shared, store', hcompile, htemplate, hcount, hsame⟩ :=
      compile_first hfind (by decide +kernel) havoids hsource
    have hmode : options.cacheMode = .durable ⟨"cache"⟩ := rfl
    obtain ⟨e', fresh, again, hcreate, hagain, htemplate', hstats⟩ :=
      compile_again partials hmode rfl hworks hcompile hcount hsame
    have hdepth : ¬ shared.template.toJson.depth < Json.maxDepth := by
      rw [htemplate]
      exact of_decide_eq_false (Option.some.inj hdeep)
    rw [if_neg hdepth] at hstats
    exact ⟨hmode, hworks, shared, store', hcompile, hcount, hsame, e', fresh, again, hcreate,
      hagain, htemplate', hstats⟩

end Compile

end Engine

end Mustache
