import Mustache.Proofs.Engine.Serving
import Mustache.Proofs.Render.Nesting

/-!
# Mustache.Proofs.Engine.EntryPoints

A template renders alike in all the ways in which an engine can be asked for it.

It can be given as text, by the name that it is registered under, by the path of a file that holds
it, and by a tag for it (`Engine.tagOf`). Without a cache the first three do the same
(`Engine.renderNamed_eq`, `Engine.renderFile_eq`). The tag opens one partial more
(`Engine.render_tag_eq_or`), and where partials are compiled in, it opens those that the source
includes one level less deep (`Engine.render_tag_eq_error`). With a cache the answers are those
without one, as long as it holds what it should (`Engine.Serves`); then `Engine.entries_agree` puts
all four together. That a partial may fail which only one of two calls comes upon is shown by
`Engine.entries_disagree`, and how deep it may lie by `Engine.entries_disagree_deep`.
-/

namespace Mustache

open Node

variable {η : Type}

/-! ## Without a cache -/

namespace Engine

variable {e : Engine} {host : Host η} {files : Files} {store : Store} {name source : String}
  {value : Value} {kept : η}

theorem renderNamed_eq (hname : e.registered name = some source) :
    e.renderNamed host name value kept store = e.render host source value kept store := by
  simp only [renderNamed, render, inFreshContext, renderPartial, renderInContext, onStore,
    partialTemplate, hname, Renderer.withFrame, bind_apply]
  rcases e.compile source store with ⟨error | shared, next⟩ <;> rfl

theorem exists_versionOf_of_read {path : Path} (h : readSource files path = .ok source) :
    ∃ version, versionOf files path = .ok version := by
  cases hfind : files.find path with
  | ok found => exact ⟨_, versionOf_eq_ok_iff.2 ⟨found, hfind, rfl⟩⟩
  | error fault =>
    rw [readSource, Files.readText, Files.read, hfind] at h
    cases h

theorem renderFile_eq (hmode : store.cache.mode = .disabled) {path : Path}
    (hread : readSource store.files path = .ok source) :
    e.renderFile host path value kept store = e.render host source value kept store := by
  obtain ⟨version, hversion⟩ := exists_versionOf_of_read hread
  have hcompile : e.compileFile path store = e.compile source store := by
    simp only [compileFile, hversion, compile, compileWith, fetch, Cache.fetch, hmode, hread]
  simp only [renderFile, render, inFreshContext, renderInFile, renderInContext, onStore, hcompile,
    Renderer.withFrame, bind_apply]
  rcases e.compile source store with ⟨error | shared, next⟩ <;> rfl

theorem render_uncached (e : Engine) (host : Host η) (h : Uncached files store) (source : String)
    (value : Value) (kept : η) :
    ∃ next, Uncached files next ∧ (e.render host source value kept store).1 =
      match Template.ofSource source e.options.delimiters e.options.compiler
        (e.partialSources files) with
      | .error error => .error error
      | .ok t => (t.render host e.resolver ⟨e.freshContext.push value, kept, next⟩).1 := by
  obtain ⟨hanswer, hnext⟩ := compileWith_uncached h source e.options.delimiters (e := e)
  refine ⟨_, hnext, ?_⟩
  rw [← hanswer]
  simp only [render, inFreshContext, renderInContext, onStore, Renderer.withFrame, bind_apply,
    compile]
  rcases e.compileWith source e.options.delimiters store with ⟨error | shared, next⟩ <;> rfl

/-! ## A tag -/

/-- The tag for a partial, in the delimiters of the engine. -/
def tagOf (e : Engine) (name : String) : String :=
  e.options.delimiters.opening ++ ">" ++ name ++ e.options.delimiters.closing

/-- The tag for the name is a template, and there is nothing else in it. -/
def Carries (e : Engine) (name : String) : Prop :=
  ∃ span, e.tokens (e.tagOf name) = .ok [.partialTag name "" span]

def carries (e : Engine) (name : String) : Bool :=
  match e.tokens (e.tagOf name) with
  | .ok [.partialTag found indent _] => found == name && indent == ""
  | _ => false

theorem carries_iff : e.carries name = true ↔ e.Carries name := by
  constructor
  · intro h
    rw [carries] at h
    split at h
    · rename_i found indent span htag
      obtain ⟨rfl, rfl⟩ : found = name ∧ indent = "" := by simpa using h
      exact ⟨span, htag⟩
    · cases h
  · rintro ⟨span, htag⟩
    simp [carries, htag]

instance (e : Engine) (name : String) : Decidable (e.Carries name) :=
  decidable_of_iff _ carries_iff

/-- Partials are compiled in, and one that the source includes, at most so many levels deep, fails
so. -/
def Excepted (e : Engine) (files : Files) (source : String) (levels : Nat) (error : Error) : Prop :=
  e.options.compiler.includePartialCode = true ∧ ∃ tree, e.tokens source = .ok tree ∧
    (e.partialSources files).Blames e.options.delimiters levels (partialNamesAll tree) error

theorem partialSource_of_registered (hname : e.registered name = some source) :
    e.partialSource files name = .ok (some source) := by
  rw [partialSource, hname]

theorem render_eq_error {error : Error} (hstore : Uncached files store)
    (h : e.Excepted files source maxPartialDepth error) :
    ∃ error, (e.render host source value kept store).1 = .error error ∧
      e.Excepted files source maxPartialDepth error := by
  obtain ⟨hinline, tree, htree, hblames⟩ := h
  have hroom : e.options.compiler.room = maxPartialDepth := by
    rw [CompilerOptions.room, if_pos hinline]
  rw [← hroom] at hblames ⊢
  obtain ⟨error, hblames', htemplate⟩ := exists_error_of_blames htree hblames
  obtain ⟨next, -, hanswer⟩ := e.render_uncached host hstore source value kept
  rw [htemplate] at hanswer
  exact ⟨error, hanswer, hinline, tree, htree, hblames'⟩

/-- What a tag includes fails where its partial does not parse, or in what that includes. -/
theorem blames_tag (hname : e.registered name = some source) {levels : Nat} {error : Error}
    (h : (e.partialSources files).Blames e.options.delimiters (levels + 1) [name] error) :
    e.tokens source = .error error ∨ ∃ tree, e.tokens source = .ok tree ∧
      (e.partialSources files).Blames e.options.delimiters levels (partialNamesAll tree) error := by
  have hsource : (e.partialSources files).source name = .ok (some source) :=
    partialSource_of_registered hname
  obtain ⟨other, hother, hfails⟩ := h
  cases hother with
  | tag hmem =>
    cases List.mem_singleton.1 hmem
    cases hfails with
    | version hversion =>
      change e.partialVersion files name = _ at hversion
      rw [partialVersion, hname] at hversion
      cases hversion
    | source hfails => cases hsource.symm.trans hfails
    | parse hsource' hparse =>
      cases hsource.symm.trans hsource'
      exact .inl hparse
  | inside hmem hsource' hparse hother =>
    cases List.mem_singleton.1 hmem
    cases hsource.symm.trans hsource'
    exact .inr ⟨_, hparse, other, hother, hfails⟩

theorem add_stack (stack : Nat) : 1 + maxPartialDepth + stack = maxPartialDepth + stack + 1 := by
  omega

/-- The template of a tag renders to what the template of its partial does, until too many partials
are open, or one of the two fails as a partial does that is compiled in. Where the template of the
partial is rendered with less stack it must not run out of it, and else that of the tag must not. -/
theorem render_templates_eq_or (hname : e.registered name = some source) {tree : Tree}
    (hparse : e.tokens source = .ok tree) {span : Span} {ops ops' : List Op}
    {dependencies dependencies' : List Dependency} (room : Nat) {store' : Store}
    (hstore : Uncached files store) (hstore' : Uncached files store') {c : Context}
    (hdepth : c.partialDepth < maxPartialDepth)
    (hops : Expands (e.partialSources files) e.options.delimiters e.options.compiler.room [] tree []
      ops dependencies)
    (htag : Expands (e.partialSources files) e.options.delimiters e.options.compiler.room []
      [.partialTag name "" span] [] ops' dependencies') :
    let t : Template := ⟨e.options.compiler, ops, dependencies⟩
    let t' : Template := ⟨e.options.compiler, ops', dependencies'⟩
    let direct := (t.render host e.resolver ⟨c, kept, store⟩).1
    let tagged := (t'.render (host.withStack room) e.resolver ⟨c, kept, store'⟩).1
    (host.stack < room ∧ direct ≠ .error .expansionLimit ∨
      room ≤ host.stack ∧ tagged ≠ .error .expansionLimit) →
    tagged = direct ∨ (∃ other, tagged = .error (.partialRecursion other maxPartialDepth)) ∨
      ∃ levels error, (direct = .error error ∨ tagged = .error error) ∧
        e.Excepted files source levels error := by
  simp only [Template.render, add_stack, Renderer.execute_withStack]
  intro hroom
  let Blamed (error : Error) : Prop := ∃ levels, e.Excepted files source levels error
  let Lost (error : Error) : Prop :=
    error = .expansionLimit ∧ host.stack < room ∨ Blamed error
  let Excused (error : Error) : Prop :=
    error = .expansionLimit ∧ room ≤ host.stack ∨ Blamed error
  have hpace : Lost .expansionLimit ∧ maxPartialDepth + host.stack < maxPartialDepth + room ∨
      Excused .expansionLimit ∧ maxPartialDepth + room ≤ maxPartialDepth + host.stack := by
    rcases Nat.lt_or_ge host.stack room with hlt | hge
    · exact .inl ⟨.inl ⟨rfl, hlt⟩, Nat.add_lt_add_left hlt _⟩
    · exact .inr ⟨.inl ⟨rfl, hge⟩, Nat.add_le_add_left hge _⟩
  obtain hsame | hrecursion | ⟨error, ⟨hfails, hlost⟩ | ⟨hfails, hexcused⟩⟩ :=
    hops.tag_eq_or (e.follows host files) rfl (partialSource_of_registered hname) hparse
      (fun {levels error} hinline hblames =>
        have hblamed : Blamed error := ⟨levels, hinline, tree, hparse, hblames⟩
        (⟨.inr hblamed, .inr hblamed⟩ : Lost error ∧ Excused error))
      htag hpace kept hstore hstore' hdepth
  · exact .inl hsame
  · exact .inr (.inl hrecursion)
  · obtain ⟨rfl, hlt⟩ | ⟨levels, hexcepted⟩ := hlost
    · obtain ⟨-, hnot⟩ | ⟨hge, -⟩ := hroom
      · exact absurd hfails hnot
      · omega
    · exact .inr (.inr ⟨levels, error, .inl hfails, hexcepted⟩)
  · obtain ⟨rfl, hge⟩ | ⟨levels, hexcepted⟩ := hexcused
    · obtain ⟨hlt, -⟩ | ⟨-, hnot⟩ := hroom
      · omega
      · exact absurd hfails hnot
    · exact .inr (.inr ⟨levels, error, .inr hfails, hexcepted⟩)

section Tagged

variable (hname : e.registered name = some source) (hcarries : e.Carries name)
  (hstore : Uncached files store)
include hname hcarries hstore

/-- A tag fails where a partial does that is compiled into it, inside of the source. -/
theorem render_tag_eq_error {error : Error}
    (h : e.Excepted files source (maxPartialDepth - 1) error) :
    ∃ error, (e.render host (e.tagOf name) value kept store).1 = .error error ∧
      e.Excepted files source (maxPartialDepth - 1) error := by
  obtain ⟨hinline, tree, htree, other, hother, hfails⟩ := h
  obtain ⟨span, htag⟩ := hcarries
  have hsource : (e.partialSources files).source name = .ok (some source) :=
    partialSource_of_registered hname
  have hinside : Includes (e.partialSources files) e.options.delimiters maxPartialDepth [name]
      other := .inside (List.mem_singleton_self name) hsource htree hother
  obtain ⟨error, hanswer, -, found, hfound, hblames⟩ := render_eq_error hstore
    (⟨hinline, _, htag, other, hinside, hfails⟩ : e.Excepted files (e.tagOf name) _ error)
  cases htag.symm.trans hfound
  obtain hparse | hblames := blames_tag hname hblames
  · cases htree.symm.trans hparse
  · exact ⟨error, hanswer, hinline, hblames⟩

/-- So the tag renders to what the source of its partial does. -/
theorem render_tag_eq_or (room : Nat) :
    let direct := (e.render host source value kept store).1
    let tagged := (e.render (host.withStack room) (e.tagOf name) value kept store).1
    (host.stack < room ∧ direct ≠ .error .expansionLimit ∨
      room ≤ host.stack ∧ tagged ≠ .error .expansionLimit) →
    tagged = direct ∨ (∃ other, tagged = .error (.partialRecursion other maxPartialDepth)) ∨
      ∃ levels error, (direct = .error error ∨ tagged = .error error) ∧
        e.Excepted files source levels error := by
  intro direct tagged hroom
  obtain ⟨span, htag⟩ := hcarries
  obtain ⟨next, hnext, hdirect⟩ := e.render_uncached host hstore source value kept
  obtain ⟨next', hnext', htagged⟩ :=
    e.render_uncached (host.withStack room) hstore (e.tagOf name) value kept
  have hdepth : (e.freshContext.push value).partialDepth < maxPartialDepth := Nat.zero_lt_succ _
  change direct = _ at hdirect
  change tagged = _ at htagged
  -- what the tag is compiled to, or what it fails with
  obtain ⟨ops', dependencies', hops', htemplate'⟩ | ⟨error, hblames, htemplate'⟩ :=
    ofSource_of_parse e.options.compiler (e.partialSources files) htag
  · cases hparse : e.tokens source with
    | error error =>
      simp only [Template.ofSource, show Tree.parse _ _ = _ from hparse] at hdirect
      simp only [htemplate', Template.render, add_stack, Renderer.execute_withStack] at htagged
      rw [hdirect, htagged]
      exact .inl (hops'.tag_error (e.follows host files) rfl (partialSource_of_registered hname)
        hparse _ hnext' hdepth)
    | ok tree =>
      obtain ⟨ops, dependencies, hops, htemplate⟩ | ⟨error, hblames, htemplate⟩ :=
        ofSource_of_parse e.options.compiler (e.partialSources files) hparse
      · simp only [htemplate] at hdirect
        simp only [htemplate'] at htagged
        rw [hdirect, htagged] at hroom ⊢
        exact render_templates_eq_or hname hparse room hnext hnext' hdepth hops hops' hroom
      · simp only [htemplate] at hdirect
        exact .inr (.inr ⟨_, error, .inl hdirect, hblames.inlines, tree, hparse, hblames⟩)
  · simp only [htemplate'] at htagged
    have hinline := hblames.inlines
    have hroom : e.options.compiler.room = maxPartialDepth - 1 + 1 := by
      rw [CompilerOptions.room, if_pos hinline]
      rfl
    rw [hroom] at hblames
    obtain hparse | hblames := blames_tag hname hblames
    · simp only [Template.ofSource, show Tree.parse _ _ = _ from hparse] at hdirect
      exact .inl (htagged.trans hdirect.symm)
    · exact .inr (.inr ⟨_, error, .inr htagged, hinline, hblames⟩)

end Tagged

end Engine

/-! ## With a cache -/

/-- All ways to ask for a template agree. Let a source be registered under a name and lie in a file,
and let each of the calls find a store that serves it. Rendering by name and rendering the file give
what rendering the source gives. So does the tag for the name, if the name can stand in one, apart
from the case that too many partials are open there, and from one exception: that partials are
compiled in, and one of them fails that the source includes. If that lies at most 128 levels deep,
the source fails so, and if it lies less deep, the tag does. The tag may have a stack of its own: if
it is larger, it is enough that rendering the source does not run out of stack. -/
theorem Engine.entries_agree (e : Engine) (host : Host η) (room : Nat) (base : Files) (kept : η)
    (value : Value) {name source : String} {path : Path} {direct named filed tagged : Store}
    (hname : e.registered name = some source) (hcarries : e.Carries name)
    (hread : readSource base path = .ok source)
    (hdirect : e.Serves host base kept (.render source value) direct)
    (hnamed : e.Serves host base kept (.renderNamed name value) named)
    (hfiled : e.Serves host base kept (.renderFile path value) filed)
    (htagged : e.Serves (host.withStack room) base kept (.render (e.tagOf name) value) tagged) :
    let answer := (e.render host source value kept direct).1
    let answerTagged := (e.render (host.withStack room) (e.tagOf name) value kept tagged).1
    (e.renderNamed host name value kept named).1 = answer ∧
    (e.renderFile host path value kept filed).1 = answer ∧
    (∀ error, e.Excepted base source maxPartialDepth error →
      ∃ error, answer = .error error ∧ e.Excepted base source maxPartialDepth error) ∧
    (∀ error, e.Excepted base source (maxPartialDepth - 1) error →
      ∃ error, answerTagged = .error error ∧ e.Excepted base source (maxPartialDepth - 1) error) ∧
    ((host.stack < room ∧ answer ≠ .error .expansionLimit ∨
        room ≤ host.stack ∧ answerTagged ≠ .error .expansionLimit) →
      answerTagged = answer ∨
      (∃ other, answerTagged = .error (.partialRecursion other maxPartialDepth)) ∨
      ∃ levels error, (answer = .error error ∨ answerTagged = .error error) ∧
        e.Excepted base source levels error) := by
  intro answer answerTagged
  have hplain := Uncached.plain base
  have hanswer : answer = (e.render host source value kept (.plain base)).1 :=
    hdirect.same.rendered_eq
  have hanswerTagged : answerTagged =
      (e.render (host.withStack room) (e.tagOf name) value kept (.plain base)).1 :=
    htagged.same.rendered_eq
  rw [hanswer, hanswerTagged]
  refine ⟨?_, ?_, fun _ => render_eq_error hplain,
    fun _ => render_tag_eq_error hname hcarries hplain, render_tag_eq_or hname hcarries hplain room⟩
  · calc (e.renderNamed host name value kept named).1
        = (e.renderNamed host name value kept (.plain base)).1 := hnamed.same.rendered_eq
      _ = (e.render host source value kept (.plain base)).1 := by rw [renderNamed_eq hname]
  · calc (e.renderFile host path value kept filed).1
        = (e.renderFile host path value kept (.plain base)).1 := hfiled.same.rendered_eq
      _ = (e.render host source value kept (.plain base)).1 := by
        rw [renderFile_eq rfl (show readSource (Store.plain base).files path = _ from hread)]

/-- A partial that includes itself where the value has more: asked for by its source and as a file
without a cache, and by its name and then by a tag with a cache in memory. -/
theorem Engine.entries_agree_tree :
    let source := "(\x7b\x7b#k\x7d\x7d\x7b\x7b>p\x7d\x7d\x7b\x7b/k\x7d\x7d)"
    let e : Engine :=
      ⟨{ persistCache := false, compiler := { includePartialCode := true } }, [("p", source)]⟩
    let base : Files := ⟨[(["t"], .file source.toUTF8 1)]⟩
    let value : Value := .map [("k", .map [("k", .map [("k", .null)])])]
    let named : Store := ⟨.ofMode .memory, base⟩
    let tagged := (e.renderNamed Host.empty "p" value () named).2.2
    let answer := (e.render Host.empty source value () (.plain base)).1
    let room := Host.empty.stack + 1
    let answerTagged :=
      (e.render (Host.empty.withStack room) (e.tagOf "p") value () tagged).1
    answer = .ok "((()))" ∧ tagged.cache.size = 1 ∧
    e.registered "p" = some source ∧ e.Carries "p" ∧ readSource base ⟨"t"⟩ = .ok source ∧
    (e.renderNamed Host.empty "p" value () named).1 = answer ∧
    (e.renderFile Host.empty ⟨"t"⟩ value () (.plain base)).1 = answer ∧
    (answerTagged = answer ∨
      (∃ other, answerTagged = .error (.partialRecursion other maxPartialDepth)) ∨
      ∃ levels error, (answer = .error error ∨ answerTagged = .error error) ∧
        e.Excepted base source levels error) := by
  intro source e base value named tagged answer room answerTagged
  let w : World := ⟨["cache"], [source, e.tagOf "p"], fun _ => True, [base]⟩
  have hw : w.Distinct := World.distinct_of_held (by decide +kernel) (by decide +kernel)
  have hfits : e.Fits w := by
    refine .of_memory rfl (Options.avoids_templateFile ?_ ?_ ?_ ?_) (fun registered hmem => ?_)
      fun _ => trivial
    any_goals decide
    cases List.mem_singleton.1 hmem
    exact List.mem_cons_self
  have hnamed : e.Backed base (.world w) named :=
    .fresh hw (List.mem_singleton_self base) hfits (by decide +kernel)
  have hstays : ¬ Strays (Backing.world w).Knows
      (e.answer Host.empty.logging (.renderNamed "p" value) ((), []) (.plain base)).2.1 :=
    not_strays_of_nil (by decide +kernel)
  have htagged : e.Backed base (.world w) tagged :=
    hnamed.answer Host.empty (.renderNamed "p" value) () trivial hstays
  have hname : e.registered "p" = some source := by decide +kernel
  have hcarries : e.Carries "p" := by decide +kernel
  have hread : readSource base ⟨"t"⟩ = .ok source := by decide +kernel
  have hanswer : answer = .ok "((()))" := by decide +kernel
  have hagree := entries_agree e Host.empty room base () value hname hcarries hread
    (.uncached (.plain base)) ⟨_, hnamed, trivial, hstays⟩ (.uncached (.plain base))
    ⟨_, htagged, List.mem_cons_of_mem _ List.mem_cons_self, not_strays_of_nil (by decide +kernel)⟩
  have hroom : answer ≠ .error .expansionLimit := by
    rw [hanswer]
    exact nofun
  exact ⟨hanswer, by decide +kernel, hname, hcarries, hread, hagree.1, hagree.2.1,
    hagree.2.2.2.2 (.inl ⟨Nat.lt_succ_self _, hroom⟩)⟩

/-- Where partials are compiled in, the tag may come upon another partial that does not parse, since
inside of itself a partial stays a reference. -/
theorem Engine.entries_disagree :
    let source := "\x7b\x7b>m\x7d\x7d\x7b\x7b>y\x7d\x7d"
    let e : Engine := ⟨{ compiler := { includePartialCode := true } },
      [("n", source), ("m", "\x7b\x7b>n\x7d\x7d\x7b\x7b>x\x7d\x7d"), ("x", "\x7b\x7b#x\x7d\x7d"),
        ("y", "\x7b\x7b#y\x7d\x7d")]⟩
    let answer := (e.render Host.empty source .null () (.plain .empty)).1
    let answerTagged := (e.render Host.empty (e.tagOf "n") .null () (.plain .empty)).1
    e.registered "n" = some source ∧ e.Carries "n" ∧ answerTagged ≠ answer ∧
      ∀ other, answerTagged ≠ .error (.partialRecursion other maxPartialDepth) := by
  intro source e answer answerTagged
  have hanswer : answer = .error (.unterminatedSection "y" 1 1) := by decide +kernel
  have htagged : answerTagged = .error (.unterminatedSection "x" 1 1) := by decide +kernel
  refine ⟨by decide +kernel, by decide +kernel, ?_, fun other hother => ?_⟩
  · rw [hanswer, htagged]
    decide
  · cases htagged.symm.trans hother

/-! ## The deepest partials

A chain of partials that ends where the source comes and the tag does not. -/

namespace Descent

def name (level : Nat) : String := String.singleton (Char.ofNat (1024 + level))

theorem name_injective {level other : Nat} (hlevel : level < maxPartialDepth)
    (hother : other < maxPartialDepth) (h : name level = name other) : level = other := by
  have hcode : ∀ level < maxPartialDepth, (Char.ofNat (1024 + level)).toNat = 1024 + level := by
    decide +kernel
  have hcodes := congrArg Char.toNat (String.singleton_inj.1 h)
  rw [hcode level hlevel, hcode other hother] at hcodes
  omega

/-- Each partial includes the next one, and the last one is broken. -/
def source (level : Nat) : String :=
  if level + 1 < maxPartialDepth then "\x7b\x7b>" ++ name (level + 1) ++ "\x7d\x7d"
  else "\x7b\x7b#open\x7d\x7d"

/-- The source that includes the first one, where it is not rendered. -/
def root : String := "\x7b\x7b#no\x7d\x7d\x7b\x7b>" ++ name 0 ++ "\x7d\x7d\x7b\x7b/no\x7d\x7d"

def engine : Engine :=
  ⟨{ compiler := { includePartialCode := true } },
    ("root", root) :: (List.range maxPartialDepth).map fun level => (name level, source level)⟩

theorem registered_name {level : Nat} (h : level < maxPartialDepth) :
    engine.registered (name level) = some (source level) := by
  have hroot : ∀ level < maxPartialDepth, ("root" == name level) = false := by decide +kernel
  have hfind : (List.range maxPartialDepth).find? (fun other => name other == name level) =
      some level := by
    refine List.find?_range_eq_some.2 ⟨beq_self_eq_true _, List.mem_range.2 h, fun other hlt => ?_⟩
    have hne : name other ≠ name level := fun hsame =>
      Nat.ne_of_lt hlt (name_injective (Nat.lt_trans hlt h) h hsame)
    simp [hne]
  simp only [Engine.registered, engine, List.find?_cons, hroot level h, List.find?_map,
    Function.comp_def, hfind, Option.map_some]

theorem partialSource_name (level : Nat) (h : level < maxPartialDepth) :
    (engine.partialSources .empty).source (name level) = .ok (some (source level)) :=
  Engine.partialSource_of_registered (registered_name h)

theorem tokens_source (level : Nat) (h : level + 1 < maxPartialDepth) :
    ∃ span, engine.tokens (source level) = .ok [.partialTag (name (level + 1)) "" span] := by
  have hall : ∀ level < maxPartialDepth, engine.Carries (name level) := by decide +kernel
  obtain ⟨span, hspan⟩ := hall (level + 1) h
  rw [source, if_pos h]
  exact ⟨span, hspan⟩

theorem includes_last (below : Nat) (h : below < maxPartialDepth) :
    Includes (engine.partialSources .empty) .standard (below + 1)
      [name (maxPartialDepth - 1 - below)] (name (maxPartialDepth - 1)) := by
  induction below with
  | zero => exact .tag (List.mem_singleton_self _)
  | succ below ih =>
    obtain ⟨span, hspan⟩ := tokens_source (maxPartialDepth - 1 - (below + 1)) (by omega)
    have hnext : maxPartialDepth - 1 - (below + 1) + 1 = maxPartialDepth - 1 - below := by omega
    rw [hnext] at hspan
    exact .inside (List.mem_singleton_self _) (partialSource_name _ (by omega)) hspan
      (ih (Nat.lt_of_succ_lt h))

theorem not_blames (levels : Nat) {level : Nat} {error : Error}
    (h : level + levels < maxPartialDepth) :
    ¬ (engine.partialSources .empty).Blames .standard levels [name level] error := by
  rintro ⟨found, hincludes, hfails⟩
  induction levels generalizing level with
  | zero => cases hincludes
  | succ levels ih =>
    obtain ⟨span, hspan⟩ := tokens_source level (by omega)
    have hsource := partialSource_name level (by omega)
    cases hincludes with
    | tag hmem =>
      cases List.mem_singleton.1 hmem
      cases hfails with
      | version hversion =>
        change engine.partialVersion .empty _ = _ at hversion
        rw [Engine.partialVersion, registered_name (by omega)] at hversion
        cases hversion
      | source hfails => cases hsource.symm.trans hfails
      | parse hsource' hparse =>
        cases hsource.symm.trans hsource'
        cases hspan.symm.trans hparse
    | inside hmem hsource' hparse hinside =>
      cases List.mem_singleton.1 hmem
      cases hsource.symm.trans hsource'
      cases hspan.symm.trans hparse
      exact ih (by omega) hinside

def body? : Tree → Option Tree
  | [.block "no" false children _ _ _ _] => some children
  | _ => none

def first : Tree → Bool
  | [.partialTag found _ _] => found == name 0
  | _ => false

theorem exists_of_body? {tree children : Tree} (h : body? tree = some children) :
    ∃ raw delimiters opening closing,
      tree = [.block "no" false children raw delimiters opening closing] := by
  unfold body? at h
  split at h
  · cases h
    exact ⟨_, _, _, _, rfl⟩
  · cases h

theorem exists_of_first {tree : Tree} (h : first tree = true) :
    ∃ indent span, tree = [.partialTag (name 0) indent span] := by
  unfold first at h
  split at h
  · cases beq_iff_eq.1 h
    exact ⟨_, _, rfl⟩
  · cases h

theorem exists_tokens_root : ∃ indent span raw delimiters opening closing,
    engine.tokens root = .ok
      [.block "no" false [.partialTag (name 0) indent span] raw delimiters opening closing] := by
  obtain ⟨tree, htree, hshape⟩ : ∃ tree, engine.tokens root = .ok tree ∧
      (body? tree).any first = true := exists_ok_of_check (by decide +kernel)
  obtain ⟨hbody, hfirst⟩ := (Option.any_eq_true_iff_get _ _).1 hshape
  obtain ⟨indent, span, hchildren⟩ := exists_of_first hfirst
  obtain ⟨raw, delimiters, opening, closing, rfl⟩ :=
    exists_of_body? ((Option.some_get hbody).symm.trans (congrArg some hchildren))
  exact ⟨indent, span, raw, delimiters, opening, closing, htree⟩

theorem registered_root : engine.registered "root" = some root := rfl

theorem carries_root : engine.Carries "root" := by decide +kernel

theorem render_root :
    ∃ error, (engine.render Host.empty root .null () (.plain .empty)).1 = .error error := by
  obtain ⟨indent, span, raw, delimiters, opening, closing, htree⟩ := exists_tokens_root
  have hlast := partialSource_name (maxPartialDepth - 1) (by decide)
  have hbroken : (engine.tokens (source (maxPartialDepth - 1))).isOk = false := by decide +kernel
  cases hparse : engine.tokens (source (maxPartialDepth - 1)) with
  | ok _ => simp [hparse, Except.isOk, Except.toBool] at hbroken
  | error error =>
    have hexcepted : engine.Excepted .empty root maxPartialDepth error :=
      ⟨rfl, _, htree, _, includes_last _ (by decide), .parse hlast hparse⟩
    obtain ⟨error, hanswer, -⟩ := Engine.render_eq_error (.plain .empty) hexcepted
    exact ⟨error, hanswer⟩

theorem render_tag :
    (engine.render Host.empty (engine.tagOf "root") .null () (.plain .empty)).1 = .ok "" := by
  obtain ⟨indent, _, raw, delimiters, opening, closing, htree⟩ := exists_tokens_root
  have hsource : engine.partialSource .empty "root" = .ok (some root) :=
    Engine.partialSource_of_registered registered_root
  obtain ⟨span, htag⟩ := carries_root
  obtain ⟨next, -, hanswer⟩ :=
    engine.render_uncached Host.empty (.plain .empty) (engine.tagOf "root") .null ()
  refine hanswer.trans ?_
  obtain ⟨ops, dependencies, hops, htemplate⟩ | ⟨error, hblames, -⟩ :=
    ofSource_of_parse engine.options.compiler (engine.partialSources .empty) htag
  · rw [htemplate]
    cases hops with
    | reference hstays _ => exact absurd hstays (by decide)
    | missing _ _ hmissing _ => cases hsource.symm.trans hmissing
    | inlined _ _ hsource' hparse hbody htail =>
      cases hsource.symm.trans hsource'
      cases htree.symm.trans hparse
      cases htail
      -- whatever the section holds, it is not rendered
      cases hbody with
      | block _ hnil =>
        cases hnil
        rfl
  · obtain hparse | ⟨tree, htree', hblames⟩ := Engine.blames_tag registered_root hblames
    · cases htree.symm.trans hparse
    · cases htree.symm.trans htree'
      exact absurd hblames (not_blames _ (by decide))

end Descent

/-- Where partials are compiled in, the tag does not come upon a partial that does not parse if it
is as deep as the source comes. -/
theorem Engine.entries_disagree_deep :
    let e := Descent.engine
    let answer := (e.render Host.empty Descent.root .null () (.plain .empty)).1
    let answerTagged := (e.render Host.empty (e.tagOf "root") .null () (.plain .empty)).1
    e.registered "root" = some Descent.root ∧ e.Carries "root" ∧
      (∃ error, answer = .error error) ∧ answerTagged = .ok "" :=
  ⟨Descent.registered_root, Descent.carries_root, Descent.render_root, Descent.render_tag⟩

end Mustache
