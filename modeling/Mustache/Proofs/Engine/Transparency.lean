import Mustache.Proofs.Engine.Session

/-!
# Mustache.Proofs.Engine.Transparency

Caching is transparent: a run of a session has the outcomes that it has when all of its engines work
without a cache (`Session.run_withoutCache`).

The session is followed beside one whose engines keep no templates and whose host keeps the record
of what lambdas return (`Coupling.uncached`). Until that record holds a text that is not in play,
the engines in both answer alike. `Session.run_logging` does away with the record.
-/

namespace Mustache

variable {η : Type}

/-! ## The same outcomes -/

theorem forall₂_join {α β γ : Type} {R : α → γ → Prop} {S : β → γ → Prop} {T : α → β → Prop}
    (hjoin : ∀ {a b c}, R a c → S b c → T a b) {as : List α} {bs : List β} {cs : List γ}
    (h : List.Forall₂ R as cs) (h' : List.Forall₂ S bs cs) : List.Forall₂ T as bs := by
  induction h generalizing bs with
  | nil =>
    cases h'
    exact .nil
  | cons hac _ ih =>
    cases h' with
    | cons hbc htail => exact .cons (hjoin hac hbc) (ih htail)

theorem Template.Same.join {t t' u : Template} (h : t.Same u) (h' : t'.Same u) : t.Same t' where
  options := h.options.trans h'.options.symm
  ops := h.ops.trans h'.ops.symm
  dependencies := forall₂_join
    (fun hac hbc => ⟨hac.1.trans hbc.1.symm, BEq.trans hac.2 (BEq.symm hbc.2)⟩)
    h.dependencies h'.dependencies

theorem Outcome.Same.join {a b c : Outcome} (h : a.Same c) (h' : b.Same c) : a.Same b := by
  cases h with
  | done answer =>
    cases h'
    exact .done answer
  | compiled hac =>
    cases h' with
    | compiled hbc =>
      refine .compiled ?_
      cases hac with
      | error e =>
        cases hbc
        exact .error e
      | ok htt' =>
        cases hbc with
        | ok hut' => exact .ok (htt'.join hut')
  | rendered answer =>
    cases h'
    exact .rendered answer
  | renderedIn answer context =>
    cases h'
    exact .renderedIn answer context

/-! ## With a record and without -/

namespace Coupling

def itself : Coupling := ⟨fun _ => True, fun _ => True, Eq, Eq⟩

theorem lasting_itself : itself.Lasting where
  alike := by
    rintro e _ c _ files _ ⟨⟩ ⟨⟩
    refine ⟨Eq, e.alike_self, rfl, ?_⟩
    rintro store _ rfl
    exact ⟨rfl, rfl⟩
  addPartial := by
    rintro e _ c _ files _ source name ⟨⟩ ⟨⟩ -
    exact ⟨rfl, rfl⟩

theorem takes_itself (d : Place) (event : Event) : itself.Takes d event event := by
  cases event with
  | create options =>
    refine .create ?_
    rintro files _ rfl
    exact .refl (fun _ => ⟨rfl, rfl⟩) _
  | addPartial engine name source => exact .addPartial trivial
  | ask engine request =>
    refine .ask ?_
    cases request <;> exact trivial
  | edit other =>
    refine .edit ?_
    rintro files _ rfl
    rfl

end Coupling

/-- Keeping the record of what lambdas return makes no difference. -/
theorem Session.run_logging (d : Place) (host : Host η) (files : Files) (kept : η)
    (events : List Event) :
    List.Forall₂ Outcome.Same ((start files kept).run d host events).1
      ((start files (kept, [])).run d host.logging events).1 := by
  have hstart : Coupling.itself.Relates (start files kept) (start files (kept, [])) :=
    ⟨.nil, rfl, rfl⟩
  refine (Coupling.lasting_itself.run (List.forall₂_same.2 fun event _ =>
    Coupling.takes_itself d event) hstart).resolve_left ?_
  rintro ⟨text, -, hunknown⟩
  exact hunknown trivial

/-! ## With a cache and without -/

namespace Coupling

def uncached (w : World) : Coupling where
  known := (· ∈ w.texts)
  reached path := w.paths path ∧ path.Apart w.directory
  files files files' := files' ∈ w.moments ∧ Overlay w.Sound w.directory files' files
  slots slot slot' := slot'.1 = slot.1.withoutCache ∧ slot.1.Fits w ∧
    slot.2.mode = slot.1.options.cacheMode ∧ (∀ e ∈ slot.2.stored, w.Sound e.1 e.2.template) ∧
    slot'.2.mode = .disabled

variable {w : World} (hw : w.Distinct)
include hw

theorem lasting_uncached : (uncached w).Lasting where
  alike := by
    rintro e _ c c' files base ⟨rfl, hfits, hmode, hstored, hmode'⟩ ⟨hbase, hoverlay⟩
    refine ⟨_, hfits.alike hw hbase, ⟨⟨hmode, hstored, hoverlay⟩, hmode', rfl⟩, ?_⟩
    intro store store' h
    refine ⟨⟨rfl, hfits, h.coherent.mode, h.coherent.stored, h.uncached.mode⟩, ?_⟩
    rw [uncached, h.uncached.files]
    exact ⟨hbase, h.coherent.files⟩
  addPartial := by
    rintro e _ c c' files base source name ⟨rfl, hfits, hmode, hstored, hmode'⟩ hfiles hsource
    refine ⟨⟨rfl, ⟨⟨?_, hfits.draws.paths⟩, hfits.avoids, hfits.lies⟩, hmode, ?_, hmode'⟩, hfiles⟩
    · intro registered hmem
      rcases List.mem_cons.1 hmem with rfl | hmem
      · exact hsource
      · exact hfits.draws.texts _ (List.mem_filter.1 hmem).1
    · exact fun entry hentry => by cases hentry

omit hw in
theorem takes_uncached_create {options : Options}
    (hpaths : ∀ name, w.paths (options.templateFile name))
    (havoids : ∀ name, (options.templateFile name).Avoids w.directory)
    (hlies : ∀ {base}, base ∈ w.moments → options.cacheMode.LiesIn w base) :
    (uncached w).Takes w.directory (.create options) (.create options.withoutCache) := by
  refine .create ?_
  rintro files base ⟨hbase, hoverlay⟩
  have hcreate : Cache.create options.cacheMode files = .ok (.ofMode options.cacheMode, files) := by
    cases hmode : options.cacheMode with
    | durable directory =>
      have hfind := hoverlay.find_directory (hlies hbase hmode)
      simp only [Cache.create, createDirectory_of_find hfind]
    | _ => rfl
  have hcreate' :
      Cache.create options.withoutCache.cacheMode base = .ok (.ofMode .disabled, base) := rfl
  simp only [Engine.create, hcreate, hcreate']
  refine .ok ⟨⟨rfl, ⟨⟨?_, hpaths⟩, havoids, hlies⟩, rfl, ?_, rfl⟩, hbase, hoverlay⟩
  · exact fun registered hmem => by cases hmem
  · exact fun entry hentry => by cases hentry

omit hw in
theorem takes_uncached_edit {other : Files} (hmoment : other.outside w.directory ∈ w.moments) :
    (uncached w).Takes w.directory (.edit other) (.edit other) := by
  refine .edit ?_
  rintro files base ⟨-, hoverlay⟩
  rw [uncached, Files.edit_of_inside_eq_nil hoverlay.clean]
  exact ⟨hmoment, hoverlay.edit other⟩

end Coupling

/-! ## Transparency -/

namespace Request

def texts : Request → List String
  | .compile source | .render source _ | .renderInContext source _ => [source]
  | _ => []

def paths : Request → List Path
  | .renderFile path _ => [path]
  | _ => []

end Request

namespace Event

def texts : Event → List String
  | .addPartial _ _ source => [source]
  | .ask _ request => request.texts
  | _ => []

def options : Event → List Options
  | .create options => [options]
  | _ => []

def paths : Event → List Path
  | .ask _ request => request.paths
  | _ => []

def edited (d : Place) : Event → List Files
  | .edit files => [files.outside d]
  | _ => []

end Event

namespace Session

/-- The sources that are in play in a run without a cache: all texts that are compiled, those that
lambdas return among them, and the files that templates are read from, from moment to moment. -/
def world (d : Place) (host : Host η) (files : Files) (kept : η) (events : List Event) : World where
  directory := d
  texts := events.flatMap Event.texts ++
    ((start files (kept, [])).run d host.logging (events.map Event.withoutCache)).2.kept.2
  paths path := (∃ options ∈ events.flatMap Event.options, ∃ name,
    path = options.templateFile name) ∨ path ∈ events.flatMap Event.paths
  moments := files :: events.flatMap (Event.edited d)

/-- Caching is transparent. A run of a session has the outcomes of the run in which all engines work
without a cache, if the directory of the cache is there and empty at first, is only written by the
engines, and no template is read from what is in it, and if versions tell all sources apart. -/
theorem run_withoutCache (d : Place) (host : Host η) (files : Files) (kept : η)
    (events : List Event) (hempty : files.inside d = [])
    (hdirectory : ∀ options ∈ events.flatMap Event.options, ∀ directory,
      options.cacheMode = .durable directory →
      ∀ moment ∈ (world d host files kept events).moments,
        moment.find directory = .ok (d, .directory))
    (hpartials : ∀ options ∈ events.flatMap Event.options, ∀ name,
      (options.templateFile name).Avoids d)
    (hfiles : ∀ path ∈ events.flatMap Event.paths, path.Apart d)
    (hdistinct : (world d host files kept events).Distinct) :
    List.Forall₂ Outcome.Same ((start files kept).run d host events).1
      ((start files kept).run d host (events.map Event.withoutCache)).1 := by
  let w := world d host files kept events
  have htext : ∀ event ∈ events, ∀ text ∈ event.texts, text ∈ w.texts := fun event hevent text h =>
    List.mem_append_left _ (List.mem_flatMap.2 ⟨event, hevent, h⟩)
  have htakes : List.Forall₂ ((Coupling.uncached w).Takes d) events
      (events.map Event.withoutCache) := by
    refine List.forall₂_map_right_iff.2 (List.forall₂_same.2 fun event hevent => ?_)
    cases event with
    | create options =>
      have hmem : options ∈ events.flatMap Event.options :=
        List.mem_flatMap.2 ⟨_, hevent, List.mem_cons_self⟩
      exact Coupling.takes_uncached_create (fun name => .inl ⟨options, hmem, name, rfl⟩)
        (hpartials options hmem) fun hmoment _ hmode => hdirectory options hmem _ hmode _ hmoment
    | addPartial engine name source => exact .addPartial (htext _ hevent _ List.mem_cons_self)
    | ask engine request =>
      refine .ask ?_
      cases request with
      | compile source => exact htext _ hevent _ List.mem_cons_self
      | render source value => exact htext _ hevent _ List.mem_cons_self
      | renderInContext source context => exact htext _ hevent _ List.mem_cons_self
      | renderNamed name value => exact trivial
      | renderFile path value =>
        have hmem : path ∈ events.flatMap Event.paths :=
          List.mem_flatMap.2 ⟨_, hevent, List.mem_cons_self⟩
        exact ⟨.inr hmem, hfiles path hmem⟩
      | clearCache => exact trivial
    | edit other =>
      exact Coupling.takes_uncached_edit (w := w)
        (List.mem_cons_of_mem _ (List.mem_flatMap.2 ⟨_, hevent, List.mem_cons_self⟩))
  have hstart : (Coupling.uncached w).Relates (start files kept) (start files (kept, [])) :=
    ⟨.nil, ⟨List.mem_cons_self, .refl hempty⟩, rfl⟩
  have hstays : ¬ Strays (· ∈ w.texts)
      ((start files (kept, [])).run d host.logging (events.map Event.withoutCache)).2.kept := by
    rintro ⟨text, hmem, hunknown⟩
    exact hunknown (List.mem_append_right _ hmem)
  have hcached := ((Coupling.lasting_uncached hdistinct).run htakes hstart).resolve_left hstays
  exact forall₂_join (fun hac hbc => hac.join hbc) hcached (run_logging d host files kept _)

/-- Two engines, a partial that changes while it is part of a template, and a file that changes. -/
theorem run_withoutCache_edit :
    let d : Place := ["cache"]
    let file : String → Int → Files := fun text modified =>
      ⟨[(d, .directory), (["t.mustache"], .file text.toUTF8 modified)]⟩
    let options : Options :=
      { cacheDirectory := some ⟨"cache"⟩, compiler := { includePartialCode := true } }
    let source := "\x7b\x7b> p\x7d\x7d"
    let events : List Event := [.create options, .create options.inMemory,
      .addPartial 0 "p" "one", .ask 0 (.compile source), .ask 1 (.render source .null),
      .addPartial 0 "p" "two", .ask 0 (.render source .null), .edit (file "new" 2),
      .ask 0 (.renderFile ⟨"t.mustache"⟩ .null), .ask 0 .clearCache]
    (file "old" 1).inside d = [] ∧
    (∀ options ∈ events.flatMap Event.options, ∀ directory,
      options.cacheMode = .durable directory →
      ∀ moment ∈ (world d Host.empty (file "old" 1) () events).moments,
        moment.find directory = .ok (d, .directory)) ∧
    (∀ options ∈ events.flatMap Event.options, ∀ name, (options.templateFile name).Avoids d) ∧
    (∀ path ∈ events.flatMap Event.paths, path.Apart d) ∧
    (world d Host.empty (file "old" 1) () events).Distinct ∧
    List.Forall₂ Outcome.Same ((start (file "old" 1) ()).run d Host.empty events).1
      ((start (file "old" 1) ()).run d Host.empty (events.map Event.withoutCache)).1 := by
  intro d file options source events
  have hempty : (file "old" 1).inside d = [] := rfl
  have hdirectory : ∀ options ∈ events.flatMap Event.options, ∀ directory,
      options.cacheMode = .durable directory →
      ∀ moment ∈ (world d Host.empty (file "old" 1) () events).moments,
        moment.find directory = .ok (d, .directory) := by
    intro o ho directory hmode moment hmoment
    rcases List.mem_cons.1 ho with rfl | ho
    · cases (hmode : CacheMode.durable ⟨"cache"⟩ = .durable directory)
      refine Files.find_eq_ok_iff.2 ?_
      rcases List.mem_cons.1 hmoment with rfl | hmoment
      · exact ⟨by decide +kernel, rfl⟩
      · obtain rfl := List.mem_singleton.1 hmoment
        exact ⟨by decide +kernel, rfl⟩
    · obtain rfl := List.mem_singleton.1 ho
      cases (hmode : CacheMode.memory = .durable directory)
  have hpartials : ∀ options ∈ events.flatMap Event.options, ∀ name,
      (options.templateFile name).Avoids d := by
    intro o ho
    have hext : o.templateExtension = "mustache" := by
      rcases List.mem_cons.1 ho with rfl | ho
      · rfl
      · obtain rfl := List.mem_singleton.1 ho
        rfl
    exact Options.avoids_templateFile (by rw [hext]; decide) (by rw [hext]; decide)
      (by rw [hext]; decide) (by rw [hext]; decide)
  have hfiles : ∀ path ∈ events.flatMap Event.paths, path.Apart d := by
    intro path hpath
    obtain rfl := List.mem_singleton.1 hpath
    intro fingerprint before hbefore hplace
    have hsteps : Files.steps ⟨"t.mustache"⟩ = ["t.mustache"] := by decide +kernel
    rw [hsteps, List.prefix_cons_iff] at hbefore
    rcases hbefore with rfl | ⟨rest, rfl, hrest⟩
    · cases congrArg List.length hplace
    · rw [List.prefix_nil] at hrest
      subst hrest
      cases congrArg List.length hplace
  have hdistinct : (world d Host.empty (file "old" 1) () events).Distinct := by
    refine World.distinct_of_held ?_ ?_
    · have htexts : (world d Host.empty (file "old" 1) () events).texts
          = ["one", source, source, "two", source] := by decide +kernel
      rw [htexts]
      decide +kernel
    · decide +kernel
  exact ⟨hempty, hdirectory, hpartials, hfiles, hdistinct, run_withoutCache d Host.empty
    (file "old" 1) () events hempty hdirectory hpartials hfiles hdistinct⟩

/-- A file that is asked for by a path through an entry: with a cache the entry is a file in the
way, and without one there is nothing. -/
theorem run_through_entry :
    let d : Place := ["cache"]
    let files : Files := ⟨[(d, .directory)]⟩
    let options : Options := { cacheDirectory := some ⟨"cache"⟩ }
    let path := (Cache.entryFile ⟨"cache"⟩ (.ofText "a" .standard {})).join ⟨"x"⟩
    let events : List Event :=
      [.create options, .ask 0 (.compile "a"), .ask 0 (.renderFile path .null)]
    files.inside d = [] ∧
    (∀ moment ∈ (world d Host.empty files () events).moments,
      moment.find ⟨"cache"⟩ = .ok (d, .directory)) ∧
    (∀ name, (options.templateFile name).Avoids d) ∧
    (world d Host.empty files () events).Distinct ∧
    ¬ List.Forall₂ Outcome.Same ((start files ()).run d Host.empty events).1
      ((start files ()).run d Host.empty (events.map Event.withoutCache)).1 := by
  intro d files options path events
  refine ⟨rfl, ?_, ?_, World.distinct_of_held ?_ ?_, fun hsame => ?_⟩
  · intro moment hmoment
    obtain rfl := List.mem_singleton.1 hmoment
    exact Files.find_eq_ok_iff.2 ⟨by decide +kernel, rfl⟩
  · exact Options.avoids_templateFile (by decide) (by decide) (by decide) (by decide)
  · have htexts : (world d Host.empty files () events).texts = ["a"] := by decide +kernel
    rw [htexts]
    decide +kernel
  · decide +kernel
  · let fault : Outcome → Option Files.Fault := fun outcome =>
      match outcome with
      | .rendered (.error (.io fault)) => some fault
      | _ => none
    have hfaults : ∀ {as bs : List Outcome}, List.Forall₂ Outcome.Same as bs →
        as.map fault = bs.map fault := by
      intro as bs h
      induction h with
      | nil => rfl
      | cons hab _ ih =>
        rw [List.map_cons, List.map_cons, ih]
        cases hab <;> rfl
    exact absurd (hfaults hsame) (by decide +kernel)

end Session

end Mustache
