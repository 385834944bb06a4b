import Mustache.Proofs.Engine.LambdaFree

/-!
# Mustache.Proofs.Engine.Inlining

Compiling partials into templates does not change what is rendered.

Both ways of compiling render to what the source means, read as a tree (`Engine.meaning`). Without
partials in the code that is so in all contexts; with them it is so in contexts without lambdas,
apart from missing partials that are met inside `maxPartialDepth` others: looked up there, they are
an error, and compiled in they are nothing. `renderInContext_inlining` compares the two, whatever
templates each of the engines has kept.
-/

namespace Mustache

variable {η : Type} {e : Engine} {host : Host η} {files : Files}

theorem Files.isFile_eq_false (h : ∀ entry ∈ files.entries, entry.2 = .directory) (path : Path) :
    files.isFile path = false := by
  rw [isFile]
  split
  · rename_i place content modified hfind
    obtain ⟨-, hentry⟩ := find_eq_ok_iff.1 hfind
    by_cases hp : place = []
    · rw [hp, entryAt_nil] at hentry
      cases hentry
    · cases h _ (mem_entries_of_entryAt hp hentry)
  · rfl

namespace Engine

def inlining (e : Engine) (on : Bool) : Engine :=
  { e with options := { e.options with
      compiler := { e.options.compiler with includePartialCode := on } } }

/-- What a source means, read as a tree that others are entered from at most `limit - 1` deep. -/
def meaningTo (e : Engine) (host : Host η) (files : Files) (limit : Nat) (source : String)
    (c : Context) : Meaning η String := do
  let tree ← Meaning.ofExcept (e.tokens source)
  tree.interpret (e.interpreter host files) limit c

/-- What a source means, followed as deep as templates are rendered. -/
def meaning (e : Engine) (host : Host η) (files : Files) (source : String) (c : Context) :
    Meaning η String :=
  e.meaningTo host files (1 + maxPartialDepth + host.stack) source c

theorem mem_of_registered {name source : String}
    (h : e.registered name = some source) : (name, source) ∈ e.partials := by
  rw [registered] at h
  split at h
  · rename_i hfind
    cases h
    have hname := List.find?_some hfind
    exact eq_of_beq hname ▸ List.mem_of_find?_eq_some hfind
  · cases h

/-- Every registered partial is a template, and no name has a template file. -/
structure InMemory (e : Engine) (files : Files) : Prop where
  parses {name source} : e.registered name = some source → ∃ tree, e.tokens source = .ok tree
  noFile (name : String) : files.isFile (e.options.templateFile name) = false

theorem InMemory.complete (h : e.InMemory files) :
    (e.partialSources files).Complete e.options.delimiters := by
  intro name
  simp only [partialSources, partialSource, partialVersion, h.noFile name]
  cases hname : e.registered name with
  | none => exact ⟨⟨_, rfl⟩, .inl rfl⟩
  | some source =>
    obtain ⟨tree, htree⟩ := h.parses hname
    exact ⟨⟨_, rfl⟩, .inr ⟨source, tree, rfl, htree⟩⟩

theorem compile_realizes {Excused Allowed : Error → Prop} {c : Context} {kept : η}
    (htotal : (e.partialSources files).Suffice e.options.compiler.room e.options.delimiters
      Allowed) (source : String) :
    Realizes Excused Allowed (Uncached files)
      (fun shared tree => ∃ ops dependencies, Expands (e.partialSources files)
        e.options.delimiters e.options.compiler.room [] tree [] ops dependencies ∧
        shared.template = ⟨e.options.compiler, ops, dependencies⟩)
      (onStore (e.compile source)) (Meaning.ofExcept (e.tokens source)) c kept := by
  refine .onStore (e.compile source) fun store hstore => ?_
  obtain ⟨hanswer, hstore'⟩ := compileWith_uncached hstore source e.options.delimiters (e := e)
  cases htree : e.tokens source with
  | error error =>
    rw [Template.ofSource, show Tree.parse _ _ = _ from htree] at hanswer
    exact .inr ⟨hstore', view_of_map_eq hanswer⟩
  | ok tree =>
    obtain ⟨error, htemplate, herror⟩ | ⟨ops, dependencies, hops, htemplate⟩ :=
      htotal.ofSource htree
    · rw [htemplate] at hanswer
      exact .inl ⟨error, view_of_map_eq hanswer, herror⟩
    · rw [htemplate] at hanswer
      obtain ⟨shared, hshared, hcompile⟩ := view_of_map_eq hanswer
      exact .inr ⟨hstore', shared, ⟨ops, dependencies, hops, hshared⟩, hcompile⟩

theorem renderInContext_realizes {I : Context → η → Prop} {Excused Allowed : Error → Prop}
    {c : Context} {kept : η} (hI : Scoped host I)
    (hroom : e.options.compiler.room = 0 ∧ (∀ c kept, I c kept) ∨
      (e.partialSources files).Complete e.options.delimiters ∧ NoLambda host I ∧
        ∀ name, Excused (.partialRecursion name maxPartialDepth)) (hkept : I c kept)
    (source : String) :
    Realizes Excused Allowed (Uncached files) Eq (e.renderInContext host source)
      (e.meaning host files source c) c kept := by
  refine (compile_realizes (.inl (hroom.imp And.left And.left)) source).bind ?_
  rintro shared tree kept' htree ⟨ops, dependencies, hops, hshared⟩
  obtain rfl : kept = kept' := congrArg Prod.snd htree
  rw [hshared]
  exact Expands.render_realizes (t := ⟨e.options.compiler, ops, dependencies⟩) hops
    (e.follows host files) hI rfl (hroom.imp id fun h => ⟨rfl, h⟩) hkept

/-- Without partials in the code, a source renders to what it means. -/
theorem renderInContext_eq (e : Engine) (host : Host η) (hoff : e.options.compiler.room = 0)
    (source : String) (c : Context) (kept : η) {store : Store} (hstore : Uncached files store) :
    ∃ store', e.renderInContext host source ⟨c, kept, store⟩ =
      ((e.meaning host files source c kept).1,
        ⟨c, (e.meaning host files source c kept).2, store'⟩) := by
  have hrealizes : Realizes (fun _ => False) (fun _ => False) (Uncached files) Eq
      (e.renderInContext host source) (e.meaning host files source c) c kept :=
    renderInContext_realizes (scoped_true host) (.inl ⟨hoff, fun _ _ => trivial⟩) trivial source
  obtain ⟨_, _, _, hfalse⟩ | h := hrealizes.eq
  · exact hfalse.elim
  · obtain ⟨store', -, hrender⟩ := h store hstore
    exact ⟨store', hrender⟩

/-- With partials in the code, a source renders to what it means, or what it means is that too
many partials are open. -/
theorem renderInContext_eq_or (hmemory : e.InMemory files) (source : String) {c : Context}
    {kept : η} (hc : c.LambdaFree host kept) {store : Store} (hstore : Uncached files store) :
    (∃ name, (e.meaning host files source c kept).1
      = .error (.partialRecursion name maxPartialDepth)) ∨
    ∃ store', e.renderInContext host source ⟨c, kept, store⟩ =
      ((e.meaning host files source c kept).1,
        ⟨c, (e.meaning host files source c kept).2, store'⟩) := by
  have hrealizes : Realizes (fun error => ∃ name, error = .partialRecursion name maxPartialDepth)
      (fun _ => False) (Uncached files) Eq (e.renderInContext host source)
      (e.meaning host files source c) c kept :=
    renderInContext_realizes (Within.scoped c kept)
      (.inr ⟨hmemory.complete, hc, fun name => ⟨name, rfl⟩⟩) .start source
  obtain ⟨_, _, hmeaning, name, rfl⟩ | h := hrealizes.eq
  · exact .inl ⟨name, by rw [hmeaning]⟩
  · obtain ⟨store', -, hrender⟩ := h store hstore
    exact .inr ⟨store', hrender⟩

end Engine

/-- Compiling partials into templates preserves what is rendered, in every context without lambdas
and in every mode of the cache. What is rendered without them in the code is rendered with them; and
what is rendered with them is rendered without them, unless too many partials are open there. -/
theorem renderInContext_inlining (e : Engine) (host : Host η) (base : Files)
    (hmemory : e.InMemory base) (source : String) {c : Context} {kept : η}
    (hc : c.LambdaFree host kept) {b b' : Backing} (hknown : b.Knows source)
    (hknown' : b'.Knows source) {storeOff storeOn : Store}
    (hoff : (e.inlining false).Backed base b storeOff)
    (hon : (e.inlining true).Backed base b' storeOn) :
    let off := ((e.inlining false).renderInContext host source ⟨c, kept, storeOff⟩).1
    let on := ((e.inlining true).renderInContext host source ⟨c, kept, storeOn⟩).1
    (∀ s, off = .ok s → on = .ok s) ∧
    ∀ s, on = .ok s →
      off = .ok s ∨ ∃ name, off = .error (.partialRecursion name maxPartialDepth) := by
  intro off on
  have hplain := Uncached.plain base
  have hmeaning : off = (e.meaning host base source c kept).1 := by
    obtain ⟨store', h⟩ := (e.inlining false).renderInContext_eq host rfl source c kept hplain
    exact (hoff.serves hknown hc).renderInContext_eq.trans (congrArg Prod.fst h)
  have heither : (∃ name, off = .error (.partialRecursion name maxPartialDepth)) ∨ on = off := by
    rw [hmeaning]
    have hmemory' : (e.inlining true).InMemory base := ⟨hmemory.parses, hmemory.noFile⟩
    refine (Engine.renderInContext_eq_or hmemory' source hc hplain).imp_right ?_
    rintro ⟨store', h⟩
    exact (hon.serves hknown' hc).renderInContext_eq.trans (congrArg Prod.fst h)
  rcases heither with ⟨name, hname⟩ | heq
  · refine ⟨fun s hs => ?_, fun s _ => .inr ⟨name, hname⟩⟩
    rw [hname] at hs
    cases hs
  · rw [heq]
    exact ⟨fun s hs => hs, fun s hs => .inl hs⟩

/-- A partial that follows a tree of values, each time including one that is missing: looked up
without a cache, and compiled in with a directory for templates. -/
theorem renderInContext_inlining_tree :
    let node := "[name][>gone][#kids]\n  [>node]\n[/kids]"
    let e : Engine :=
      ⟨{ delimiters := ⟨"[", "]"⟩, cacheDirectory := some ⟨"cache"⟩ }, [("node", node)]⟩
    let base : Files := ⟨[(["cache"], .directory)]⟩
    let on : Store := ⟨.ofMode e.options.cacheMode, base⟩
    let c := Context.ofValue (.map [("kids", .list [.map [("kids", .null), ("name", .text "b")]]),
      ("name", .text "a")])
    let answerOff :=
      ((e.inlining false).renderInContext Host.empty "[>node]" ⟨c, (), .plain base⟩).1
    let answerOn := ((e.inlining true).renderInContext Host.empty "[>node]" ⟨c, (), on⟩).1
    e.InMemory base ∧ c.LambdaFree Host.empty () ∧
      (∀ s, answerOff = .ok s → answerOn = .ok s) ∧ answerOff = .ok "a\n  b" := by
  intro node e base on c answerOff answerOn
  let w : World := ⟨["cache"], ["[>node]", node], fun _ => True, [base]⟩
  have hw : w.Distinct := World.distinct_of_held (by decide +kernel) (by decide +kernel)
  have hbase : base ∈ w.moments := List.mem_singleton_self base
  have hfits : (e.inlining true).Fits w := by
    refine ⟨⟨fun registered hmem => ?_, fun _ => trivial⟩, ?_, fun {moment} hmem directory h => ?_⟩
    · cases List.mem_singleton.1 hmem
      exact List.mem_cons_of_mem _ (List.mem_singleton_self node)
    · exact Options.avoids_templateFile (by decide) (by decide) (by decide) (by decide)
    · cases List.mem_singleton.1 hmem
      cases (h : CacheMode.durable ⟨"cache"⟩ = .durable directory)
      exact Files.find_eq_ok_iff.2 ⟨by decide +kernel, rfl⟩
  have hon : (e.inlining true).Backed base (.world w) on :=
    .fresh hw hbase hfits (by decide +kernel)
  have hparses : ∃ tree, e.tokens node = .ok tree ∧ tree.length = 3 :=
    exists_ok_of_check (by decide +kernel)
  have hmemory : e.InMemory base := by
    refine ⟨fun h => ?_, fun name => Files.isFile_eq_false (fun entry hmem => ?_) _⟩
    · cases List.mem_singleton.1 (Engine.mem_of_registered h)
      exact hparses.imp fun _ h => h.1
    · cases List.mem_singleton.1 hmem
      rfl
  have hc : c.LambdaFree Host.empty () :=
    lambdaFree_of_values (by rintro _ _ _ _ (h | h) <;> cases h)
      (fun frame h => by cases List.mem_singleton.1 h; decide) rfl ()
  have hknown : (Backing.world w).Knows "[>node]" := List.mem_cons_self
  have hinlining := renderInContext_inlining e Host.empty base hmemory "[>node]" hc (b := .files)
    trivial hknown (.files (.plain base)) hon
  exact ⟨hmemory, hc, hinlining.1, by decide +kernel⟩

end Mustache
