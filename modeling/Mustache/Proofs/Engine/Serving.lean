import Mustache.Proofs.Engine.Transparency

/-!
# Mustache.Proofs.Engine.Serving

Stores with which an engine answers as it does from files alone.

A store can keep no templates, or some that were compiled in a world whose sources versions tell
apart: that is what it is `Backed` by. As long as no text is compiled that is not known there,
requests are answered as they are without a cache (`Engine.Serves.same`), and templates that look
partials up render to what the trees mean that they were compiled from (`render_compile`). Any mode
of the cache will do.
-/

namespace Mustache

variable {η : Type}

/-- What stands behind a store: files alone, or a world too. -/
inductive Backing where
  | files
  | world (w : World)

namespace Backing

/-- The texts that may be compiled. -/
def Knows : Backing → String → Prop
  | files, _ => True
  | world w, text => text ∈ w.texts

/-- The files that may be asked for. -/
def Reaches : Backing → Path → Prop
  | files, _ => True
  | world w, path => w.paths path ∧ path.Apart w.directory

end Backing

namespace Engine

theorem Fits.of_memory {e : Engine} {w : World} (hmode : e.options.cacheMode = .memory)
    (havoids : ∀ name, (e.options.templateFile name).Avoids w.directory)
    (htexts : ∀ registered ∈ e.partials, registered.2 ∈ w.texts)
    (hpaths : ∀ path, w.paths path) : e.Fits w where
  draws := ⟨htexts, fun _ => hpaths _⟩
  avoids := havoids
  lies _ _ hdurable := by cases hmode.symm.trans hdurable

/-! ## Requests -/

variable {e : Engine} {host : Host η} {base : Files} {b : Backing} {store : Store} {kept : η}
  {request : Request}

/-- Beside the files `base`, the store holds nothing but templates that were compiled in the
world behind it. -/
inductive Backed (e : Engine) (base : Files) : Backing → Store → Prop where
  | files {store : Store} : Uncached base store → Backed e base .files store
  | world {w : World} {store : Store} : w.Distinct → base ∈ w.moments → e.Fits w →
      Coherent w base e.options.cacheMode store → Backed e base (.world w) store

theorem Backed.alike (h : e.Backed base b store) :
    ∃ stores, Engine.Alike stores b.Knows b.Reaches e e.withoutCache ∧
      stores store (.plain base) ∧ ∀ {next next'}, stores next next' → e.Backed base b next := by
  cases h with
  | files hstore =>
    exact ⟨_, e.alike_uncached base _ _, ⟨hstore, .plain base⟩, fun hnext => .files hnext.1⟩
  | world hw hbase hfits hstore =>
    exact ⟨_, hfits.alike hw hbase, ⟨hstore, .plain base⟩, fun hnext =>
      .world hw hbase hfits hnext.coherent⟩

/-- A store that has answered is backed as it was. -/
theorem Backed.answer (h : e.Backed base b store) (host : Host η) (request : Request) (kept : η)
    (hwithin : request.Within b.Knows b.Reaches)
    (hknown : ¬ Strays b.Knows (e.answer host.logging request (kept, []) (.plain base)).2.1) :
    e.Backed base b (e.answer host request kept store).2.2 := by
  obtain ⟨stores, halike, hstores, hbacked⟩ := h.alike
  exact hbacked ((halike.answer host hwithin kept [] hstores).resolve_left hknown).2.2

theorem Backed.fresh {w : World} (hw : w.Distinct) (hbase : base ∈ w.moments) (hfits : e.Fits w)
    (hclean : base.inside w.directory = []) :
    e.Backed base (.world w) ⟨.ofMode e.options.cacheMode, base⟩ :=
  .world hw hbase hfits ⟨rfl, fun _ hmem => (List.not_mem_nil hmem).elim, .refl hclean⟩

/-- The store is backed by something beyond which neither the request goes nor the lambdas that are
called for it. -/
def Serves (e : Engine) (host : Host η) (base : Files) (kept : η) (request : Request)
    (store : Store) : Prop :=
  ∃ b, e.Backed base b store ∧ request.Within b.Knows b.Reaches ∧
    ¬ Strays b.Knows (e.answer host.logging request (kept, []) (.plain base)).2.1

theorem not_strays_of_known {known : String → Prop} {kept : η × List String}
    (h : ∀ text ∈ kept.2, known text) : ¬ Strays known kept :=
  fun ⟨text, hmem, hunknown⟩ => hunknown (h text hmem)

theorem not_strays_of_nil {known : String → Prop} {kept : η × List String} (h : kept.2 = []) :
    ¬ Strays known kept := by
  refine not_strays_of_known fun text hmem => ?_
  rw [h] at hmem
  cases hmem

theorem Serves.uncached (h : Uncached base store) : e.Serves host base kept request store := by
  refine ⟨.files, .files h, ?_, not_strays_of_known fun _ _ => trivial⟩
  cases request <;> exact trivial

/-- A request is answered as it is from the files alone. -/
theorem Serves.same (h : e.Serves host base kept request store) :
    (e.answer host request kept store).1.Same (e.answer host request kept (.plain base)).1 := by
  obtain ⟨b, hbacked, hwithin, hknown⟩ := h
  obtain ⟨stores, halike, hstores, -⟩ := hbacked.alike
  have hcached := (halike.answer host hwithin kept [] hstores).resolve_left hknown
  have hplain := ((e.alike_uncached base _ _).answer host hwithin kept []
    ⟨.plain base, .plain base⟩).resolve_left hknown
  exact hcached.1.join hplain.1

theorem Serves.renderInContext_eq {source : String} {c : Context}
    (h : e.Serves host base kept (.renderInContext source c) store) :
    (e.renderInContext host source ⟨c, kept, store⟩).1 =
      (e.renderInContext host source ⟨c, kept, .plain base⟩).1 :=
  h.same.renderedIn_eq

end Engine

/-! ## Templates -/

/-- Compiling is correct. Where partials are looked up as they are rendered, every tree compiles,
and in every context the template renders to what the tree means: the same text or error, the
same uses of the host in the same order, and the same context afterwards. So it does with every
store that is backed by what knows the texts of the lambdas, and leaves it so. -/
theorem render_compile (e : Engine) (host : Host η) (base : Files) (tree : Tree)
    (delimiters : Delimiters) (hoff : e.options.compiler.includePartialCode = false) :
    ∃ template,
      tree.compile delimiters e.options.compiler (e.partialSources base) = .ok template ∧
      ∀ (c : Context) (kept : η) {b : Backing} {store : Store}, e.Backed base b store →
        ¬ Strays b.Knows
          (template.render host.logging e.resolver ⟨c, (kept, []), .plain base⟩).2.host →
        let meaning := tree.meaning (e.interpreter host base) c kept
        ∃ next, e.Backed base b next ∧
          template.render host e.resolver ⟨c, kept, store⟩ =
            (meaning.1, ⟨c, meaning.2, next⟩) := by
  have hroom : e.options.compiler.room = 0 := by rw [CompilerOptions.room, hoff]; rfl
  obtain ⟨ops, dependencies, hops⟩ := expands_total (e.partialSources base) delimiters 0 (.inl rfl)
    [] tree []
  rw [← hroom] at hops
  let t : Template := ⟨e.options.compiler, ops, dependencies⟩
  refine ⟨t, compile_eq_ok_iff.2 ⟨ops, dependencies, hops, rfl⟩, fun c kept b store hstore
    hknown => ?_⟩
  have hrealizes : Realizes (fun _ => False) (fun _ => False) (Uncached base) Eq
      (t.render host e.resolver) (tree.meaning (e.interpreter host base) c) c kept :=
    Expands.render_realizes hops (e.follows host base) (scoped_true host) rfl
      (.inl ⟨hroom, fun _ _ => trivial⟩) trivial
  obtain ⟨_, _, _, hfalse⟩ | heq := hrealizes.eq
  · exact hfalse.elim
  obtain ⟨left, -, hplain⟩ := heq _ (.plain base)
  -- the rendering itself, and the one without a cache, both beside the one that keeps the record
  obtain ⟨stores, halike, hstores, hbacked⟩ := hstore.alike
  have hcached := ((halike.render (.refl t)).outcome c kept [] hstores).resolve_left hknown
  have hlogged := (((e.alike_uncached base b.Knows b.Reaches).render (.refl t)).outcome c kept []
    ⟨.plain base, .plain base⟩).resolve_left hknown
  rw [hplain] at hlogged
  have hcontext := hcached.2.1.trans hlogged.2.1.symm
  have hkept := hcached.2.2.1.symm.trans hlogged.2.2.1
  refine ⟨_, hbacked hcached.2.2.2, Prod.ext (hcached.1.eq.trans hlogged.1.eq.symm) ?_⟩
  generalize t.render host e.resolver ⟨c, kept, store⟩ = result at hcontext hkept ⊢
  obtain ⟨answer, c', kept', next⟩ := result
  obtain rfl : c' = c := hcontext
  obtain rfl : kept' = _ := hkept
  rfl

/-- A comment between texts, and a partial in a section, which is in memory already. -/
theorem render_compile_section :
    let e : Engine := ⟨{ persistCache := false }, [("p", "[{{.}}]")]⟩
    let store := (e.compile "[{{.}}]" ⟨.ofMode .memory, .empty⟩).2
    let span : Span := ⟨⟨0, 1, 1⟩, ⟨0, 1, 1⟩⟩
    let tree : Tree := [.text "a", .comment "note" span, .text "b",
      .block "items" false [.partialTag "p" " " span] "" .standard span span]
    let c := Context.ofValue (.map [("items", .list [.integer 1, .integer 2])])
    let meaning := tree.meaning (e.interpreter Host.empty .empty) c ()
    e.options.compiler.includePartialCode = false ∧ store.cache.size = 1 ∧
    ∃ template next,
      tree.compile .standard e.options.compiler (e.partialSources .empty) = .ok template ∧
      template.render Host.empty e.resolver ⟨c, (), store⟩ =
        (meaning.1, ⟨c, meaning.2, next⟩) ∧ meaning.1 = .ok "ab [1] [2]" := by
  intro e store span tree c meaning
  let w : World := ⟨["cache"], ["[{{.}}]"], fun _ => True, [.empty]⟩
  have hw : w.Distinct := World.distinct_of_held (by decide +kernel) (by decide +kernel)
  have hbase : Files.empty ∈ w.moments := List.mem_singleton_self _
  have hfits : e.Fits w := by
    refine .of_memory rfl (Options.avoids_templateFile ?_ ?_ ?_ ?_) ?_ fun _ => trivial
    all_goals decide
  have hfresh : e.Backed .empty (.world w) ⟨.ofMode .memory, .empty⟩ :=
    .fresh hw hbase hfits (by decide +kernel)
  have hstore : e.Backed .empty (.world w) store :=
    hfresh.answer Host.empty (.compile "[{{.}}]") () (List.mem_singleton_self _)
      (Engine.not_strays_of_nil rfl)
  have hrender := render_compile e Host.empty .empty tree .standard rfl
  obtain ⟨template, htemplate, hrender⟩ := hrender
  obtain ⟨t, ht, hlog⟩ : ∃ t,
      tree.compile .standard e.options.compiler (e.partialSources .empty) = .ok t ∧
        (t.render Host.empty.logging e.resolver ⟨c, ((), []), .plain .empty⟩).2.host.2 = [] :=
    exists_ok_of_check (by decide +kernel)
  obtain rfl : template = t := Except.ok.inj (htemplate.symm.trans ht)
  obtain ⟨next, -, hnext⟩ := hrender c () hstore (Engine.not_strays_of_nil hlog)
  exact ⟨rfl, by decide +kernel, template, next, htemplate, hnext, by decide +kernel⟩

end Mustache
