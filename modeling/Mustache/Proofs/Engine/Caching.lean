import Mustache.Proofs.Cache.Fetching
import Mustache.Proofs.Engine.Uncached
import Mustache.Proofs.Engine.World
import Mustache.Proofs.Render.Parallel

/-!
# Mustache.Proofs.Engine.Caching

What an engine compiles through its cache is what it would compile without one.

A store is `Coherent` when all templates in memory and in files were compiled at some moment for
the fingerprints that they are kept under. Every operation of the engine keeps it so, and answers
as compiling does at this moment (`Engine.fetch_coherent`): templates that would not be what
compiling gives now are not current.
-/

namespace Mustache

def SharedTemplate.Is (shared : SharedTemplate) (t : Template) : Prop := shared.template.Same t

/-- Every template that is kept was compiled, at some moment, for what it is kept under. `base` are
the files of this moment, apart from those of the cache. -/
structure Coherent (w : World) (base : Files) (mode : CacheMode) (store : Store) : Prop where
  mode : store.cache.mode = mode
  stored : ∀ e ∈ store.cache.stored, w.Sound e.1 e.2.template
  files : Overlay w.Sound w.directory base store.files

def CacheMode.LiesIn (mode : CacheMode) (w : World) (base : Files) : Prop :=
  ∀ {directory}, mode = .durable directory → base.find directory = .ok (w.directory, .directory)

theorem Cache.entryPath_eq_some_iff {c : Cache} {fingerprint : Fingerprint} {path : Path} :
    c.entryPath fingerprint = some path ↔
      ∃ directory, c.mode = .durable directory ∧ path = entryFile directory fingerprint := by
  rw [entryPath]
  cases c.mode <;> simp [eq_comm]

section Cache

variable {w : World} {base : Files} {mode : CacheMode} {c : Cache} {files : Files}
  {fingerprint : Fingerprint} {compile : Unit → Except Error Template}
  {isCurrent : Template → Except Error Bool}

/-- The outcome of fetching is as compiling has it, and leaves the store coherent. -/
def Cache.Fetched.Good (w : World) (base : Files) (mode : CacheMode)
    (fetched : Cache.Fetched) (answer : Except Error Template) : Prop :=
  Matches SharedTemplate.Is fetched.answer answer ∧
    Coherent w base mode ⟨fetched.cache, fetched.files⟩

theorem Coherent.remember (h : Coherent w base mode ⟨c, files⟩) {shared : SharedTemplate}
    (hsound : w.Sound fingerprint shared.template) :
    Coherent w base mode ⟨c.remember fingerprint shared, files⟩ where
  mode := h.mode
  stored e he := by
    rcases List.mem_cons.1 he with rfl | he
    · exact hsound
    · exact h.stored e (List.mem_filter.1 he).1
  files := h.files

structure Compiling (w : World) (fingerprint : Fingerprint) (answer : Except Error Template)
    (isCurrent : Template → Except Error Bool) : Prop where
  sound {t} : answer = .ok t → w.Sound fingerprint t
  of_beq {saved t} : w.Sound saved t → saved == fingerprint → w.Sound fingerprint t
  current (t : Template) : ∃ current, isCurrent t = .ok current
  same {t} : w.Sound fingerprint t → isCurrent t = .ok true → ∃ t', answer = .ok t' ∧ t.Same t'

variable (h : Coherent w base mode ⟨c, files⟩) (hlies : mode.LiesIn w base)
  (hcompile : Compiling w fingerprint (compile ()) isCurrent)
include h hlies hcompile

theorem Cache.recompile_good :
    (c.recompile files fingerprint compile).Good w base mode (compile ()) := by
  rw [recompile]
  cases hanswer : compile () with
  | error error => exact ⟨.error error, h⟩
  | ok t =>
    have hsound : w.Sound fingerprint t := hcompile.sound hanswer
    have hremember : ∀ {files'}, Overlay w.Sound w.directory base files' →
        Coherent w base mode
          ⟨c.countCompilation.remember fingerprint ⟨t, c.nextSerial⟩, files'⟩ := fun hfiles =>
      Coherent.remember (c := c.countCompilation) ⟨h.mode, h.stored, hfiles⟩ hsound
    dsimp only
    cases hpath : c.countCompilation.entryPath fingerprint with
    | none => exact ⟨.ok (.refl t), hremember h.files⟩
    | some path =>
      obtain ⟨directory, hmode, hfile⟩ := entryPath_eq_some_iff.1 hpath
      obtain ⟨saved, hsave, hsaved⟩ := h.files.save (hlies (h.mode ▸ hmode)) hsound
      dsimp only
      rw [hfile, hsave]
      exact ⟨.ok (.refl t), hremember hsaved⟩

theorem Cache.fetchDurable_good :
    (c.fetchDurable files fingerprint isCurrent compile).Good w base mode (compile ()) := by
  have hrecompile := recompile_good h hlies hcompile
  rw [fetchDurable]
  cases hpath : c.entryPath fingerprint with
  | none => exact hrecompile
  | some path =>
    obtain ⟨directory, hmode, hfile⟩ := entryPath_eq_some_iff.1 hpath
    obtain ⟨found, hload, hfound⟩ := h.files.load (hlies (h.mode ▸ hmode)) fingerprint
    dsimp only
    rw [hfile, hload]
    cases found with
    | none => exact hrecompile
    | some t =>
      obtain ⟨saved, hsaved, hsound⟩ := hfound t rfl
      obtain ⟨current, hcurrent⟩ := hcompile.current t
      dsimp only
      rw [hcurrent]
      cases current with
      | false => exact hrecompile
      | true =>
        have hsound' := hcompile.of_beq hsound hsaved
        obtain ⟨t', ht', hsame⟩ := hcompile.same hsound' hcurrent
        rw [ht']
        exact ⟨.ok hsame, Coherent.remember (c := c.countDurableHit)
          ⟨h.mode, h.stored, h.files⟩ hsound'⟩

variable (compile) in
theorem Cache.fetch_good :
    (c.fetch files fingerprint isCurrent compile).Good w base mode (compile ()) := by
  have hdurable := fetchDurable_good h hlies hcompile
  rw [fetch]
  split
  · cases compile () with
    | error error => exact ⟨.error error, h.mode, h.stored, h.files⟩
    | ok t => exact ⟨.ok (.refl t), h.mode, h.stored, h.files⟩
  · cases hmemory : c.inMemory? fingerprint with
    | none => exact hdurable
    | some shared =>
      obtain ⟨current, hcurrent⟩ := hcompile.current shared.template
      dsimp only
      rw [hcurrent]
      cases current with
      | false => exact hdurable
      | true =>
        obtain ⟨saved, hmem, hsaved⟩ := mem_of_inMemory? hmemory
        have hsound := hcompile.of_beq (h.stored _ hmem) hsaved
        obtain ⟨t', ht', hsame⟩ := hcompile.same hsound hcurrent
        rw [ht']
        exact ⟨.ok hsame, h.mode, h.stored, h.files⟩

end Cache

/-! ## Engines -/

/-- No name leads to an entry of the cache, if templates have an extension of their own. -/
theorem Options.avoids_templateFile {o : Options} {d : Place} (hne : o.templateExtension ≠ "")
    (hslash : '/' ∉ o.templateExtension.toList) (hdot : '.' ∉ o.templateExtension.toList)
    (hother : o.templateExtension ≠ Cache.fileExtension) (name : String) :
    (o.templateFile name).Avoids d := by
  have hjoin : ∀ p q : Path, ∃ front, (p.join q).text.toList = front ++ q.text.toList := by
    intro p q
    rw [Path.join]
    split
    · exact ⟨[], rfl⟩
    · split
      · exact ⟨[], rfl⟩
      · exact ⟨p.text.toList, by simp⟩
      · exact ⟨p.text.toList ++ ['/'], by simp⟩
  obtain ⟨front, hfront⟩ := hjoin o.templatePath ⟨name ++ "." ++ o.templateExtension⟩
  have htext : (o.templateFile name).text.toList
      = front ++ name.toList ++ '.' :: o.templateExtension.toList := by
    rw [Options.templateFile, hfront]
    simp
  exact Path.avoids_of_text htext (by simpa using hne) hslash hdot
    fun heq => hother (String.toList_inj.1 heq)

namespace Engine

def withoutCache (e : Engine) : Engine := { e with options := e.options.withoutCache }

/-- The engine works in a world: its partials are there, no name of a template leads to what is in
the cache, and where it keeps files, these are in the directory of the world. -/
structure Fits (e : Engine) (w : World) : Prop where
  draws : e.Draws w
  avoids (name : String) : (e.options.templateFile name).Avoids w.directory
  lies {base : Files} : base ∈ w.moments → e.options.cacheMode.LiesIn w base

end Engine

def SharedTemplate.Alike (shared shared' : SharedTemplate) : Prop :=
  shared.template.Same shared'.template

/-- A store that keeps templates beside one that keeps none. -/
structure Beside (w : World) (base : Files) (mode : CacheMode) (store store' : Store) : Prop where
  coherent : Coherent w base mode store
  uncached : Uncached base store'

/-- Two operations, on stores beside each other, give answers that are related, and leave the
stores beside each other. -/
def Beside.Give {α β : Type} (w : World) (base : Files) (mode : CacheMode) (R : α → β → Prop)
    (result : Except Error α × Store) (result' : Except Error β × Store) : Prop :=
  Matches R result.1 result'.1 ∧ Beside w base mode result.2 result'.2

section Engine

variable {w : World} {base : Files} {e : Engine} {store store' : Store}

theorem Overlay.find_of_isFile {P : Fingerprint → Template → Prop} {d : Place} {files : Files}
    (h : Overlay P d base files) {path : Path} (hpath : path.Avoids d)
    (hfile : files.isFile path = true) : files.find path = base.find path := by
  obtain ⟨found, hfind⟩ := Engine.find_of_isFile hfile
  rw [hfind, (h.find_iff hpath found).1 hfind]

theorem Overlay.isFile_eq {P : Fingerprint → Template → Prop} {d : Place} {files : Files}
    (h : Overlay P d base files) {path : Path} (hpath : path.Avoids d) :
    files.isFile path = base.isFile path := by
  have hiff := h.find_iff hpath
  cases hfile : base.isFile path with
  | true =>
    obtain ⟨found, hfind⟩ := Engine.find_of_isFile hfile
    rw [Files.isFile, hfind] at hfile
    rw [Files.isFile, (hiff found).2 hfind, hfile]
  | false =>
    cases hfile' : files.isFile path with
    | false => rfl
    | true =>
      rw [Files.isFile, h.find_of_isFile hpath hfile', ← Files.isFile, hfile] at hfile'
      cases hfile'

namespace Engine

theorem readSource_congr {files files' : Files} {path : Path}
    (h : files.find path = files'.find path) : readSource files path = readSource files' path := by
  simp only [readSource, Files.readText, Files.read, h]

theorem versionOf_congr {files files' : Files} {path : Path}
    (h : files.find path = files'.find path) : versionOf files path = versionOf files' path := by
  simp only [versionOf, Files.version, h]

theorem partialSources_eq {P : Fingerprint → Template → Prop} {d : Place} {files : Files}
    (havoids : ∀ name, (e.options.templateFile name).Avoids d) (h : Overlay P d base files) :
    e.partialSources files = e.partialSources base := by
  have hfile := fun name => h.isFile_eq (havoids name)
  have hfind := fun name => h.find_of_isFile (havoids name)
  rw [partialSources, partialSources, PartialSources.mk.injEq]
  constructor
  · funext name
    simp only [partialSource, hfile]
    split
    · rfl
    · split
      · rename_i hisFile
        rw [readSource_congr (hfind name (by rw [hfile, hisFile]))]
      · rfl
  · funext name
    simp only [partialVersion, hfile]
    split
    · rfl
    · split
      · rename_i hisFile
        rw [versionOf_congr (hfind name (by rw [hfile, hisFile]))]
      · rfl

variable (hw : w.Distinct) (hbase : base ∈ w.moments) (he : e.Fits w)
  (h : Beside w base e.options.cacheMode store store')
include hw hbase he h

theorem fetch_beside {fingerprint : Fingerprint} {delimiters : Delimiters}
    {source : Files → Except Error String} (hdelimiters : fingerprint.delimiters = delimiters)
    (hoptions : fingerprint.options = e.options.compiler)
    (hsource : source store.files = source base)
    (hreads : w.Reads fingerprint.source (source base)) :
    Beside.Give w base e.options.cacheMode SharedTemplate.Alike
      (e.fetch fingerprint delimiters source store)
      (e.withoutCache.fetch fingerprint delimiters source store') := by
  obtain ⟨hanswer, huncached⟩ := fetch_uncached (e := e.withoutCache) h.uncached fingerprint
    delimiters source
  have hnow : w.State (e.partialSources base) := ⟨e, base, he.draws, hbase, rfl⟩
  have hcompiling : Compiling w fingerprint
      (e.compileRead base delimiters (source base)) (·.isCurrent (e.partialSources base)) := by
    refine ⟨fun {t} ht => ?_, fun hsound hbeq => hsound.of_beq hw hbeq hreads,
      hnow.exists_isCurrent, fun {t} hsound hcurrent => ?_⟩
    · cases hread : source base with
      | error error =>
        rw [hread] at ht
        cases ht
      | ok text =>
        rw [hread] at ht hreads
        exact ⟨text, _, hreads, hnow, by rw [hdelimiters, hoptions]; exact ht⟩
    · obtain ⟨text, t', htext, ht', hsame⟩ := hsound.same_ofSource hw hreads hnow hcurrent
      rw [hdelimiters, hoptions] at ht'
      exact ⟨t', by rw [htext]; exact ht', hsame⟩
  obtain ⟨hmatches, hcoherent⟩ := Cache.fetch_good (c := store.cache) (fun _ => _) h.coherent
    (he.lies hbase) hcompiling
  rw [Beside.Give, fetch, partialSources_eq he.avoids h.coherent.files, hsource]
  refine ⟨hmatches.of_map hanswer, hcoherent, huncached⟩

theorem compileWith_beside {source : String} (hsource : source ∈ w.texts)
    (delimiters : Delimiters) :
    Beside.Give w base e.options.cacheMode SharedTemplate.Alike
      (e.compileWith source delimiters store)
      (e.withoutCache.compileWith source delimiters store') :=
  fetch_beside hw hbase he h rfl rfl rfl (.text hsource)

theorem compileFile_beside {path : Path} (hpath : w.paths path)
    (hfind : store.files.find path = base.find path) :
    Beside.Give w base e.options.cacheMode SharedTemplate.Alike (e.compileFile path store)
      (e.withoutCache.compileFile path store') := by
  rw [compileFile, compileFile, versionOf_congr hfind, h.uncached.files]
  cases hversion : versionOf base path with
  | error error => exact ⟨.error error, h⟩
  | ok version =>
    exact fetch_beside hw hbase he h rfl rfl (readSource_congr hfind)
      (.file hpath hbase hversion)

theorem partialTemplate_beside (name : String) :
    Beside.Give w base e.options.cacheMode (Option.Rel SharedTemplate.Alike)
      (e.partialTemplate name store) (e.withoutCache.partialTemplate name store') := by
  rw [partialTemplate, partialTemplate]
  have hname : e.withoutCache.registered name = e.registered name := rfl
  have hfile : e.withoutCache.options.templateFile name = e.options.templateFile name := rfl
  rw [hname]
  cases hregistered : e.registered name with
  | some source =>
    obtain ⟨hmatches, hbeside⟩ :=
      compileWith_beside hw hbase he h (he.draws.registered hregistered) e.options.delimiters
    exact ⟨hmatches.map .some, hbeside⟩
  | none =>
    dsimp only
    rw [hfile, h.coherent.files.isFile_eq (he.avoids name), h.uncached.files]
    split
    · rename_i hisFile
      rw [← h.coherent.files.isFile_eq (he.avoids name)] at hisFile
      obtain ⟨hmatches, hbeside⟩ := compileFile_beside hw hbase he h
        (he.draws.paths name) (h.coherent.files.find_of_isFile (he.avoids name) hisFile)
      exact ⟨hmatches.map .some, hbeside⟩
    · exact ⟨.ok .none, h⟩

end Engine

end Engine

end Mustache
