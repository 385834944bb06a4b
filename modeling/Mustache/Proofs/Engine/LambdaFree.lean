import Mustache.Proofs.Engine.Serving
import Mustache.Proofs.Render.Accord

/-!
# Mustache.Proofs.Engine.LambdaFree

Engines call no lambda in contexts without lambdas.

A rendering finds only what its instructions look up, and paths that were read from tags lead to no
lambda there. So the record of what lambdas return stays empty (`Engine.renders_unlogged`), and what
backs a store need not know any text but the sources (`Engine.Backed.serves`).
-/

namespace Mustache

variable {η σ : Type}

/-- The path of the instruction, if it has one, is read from a tag. -/
def Op.Read (op : Op) : Prop :=
  ∀ path, op.path? = some path → ∃ raw, path = .ofString raw

theorem Op.read_of_none {op : Op} (h : op.path? = none) : op.Read := by
  intro path hpath
  cases h.symm.trans hpath

theorem Op.read_ofBlock (path : String) (inverted : Bool) (body : List Op) (raw : String)
    (pair : Delimiters) : (Op.ofBlock path inverted body raw pair).Read := by
  cases inverted <;> rintro _ ⟨⟩ <;> exact ⟨path, rfl⟩

theorem Expands.read {partials : PartialSources} {delimiters : Delimiters} {left : Nat}
    {enclosing : List String} {nodes : List Node} {known known' : List Dependency} {ops : List Op}
    (h : Expands partials delimiters left enclosing nodes known ops known') :
    Op.All Op.Read ops := by
  induction h with
  | nil => exact .nil
  | text _ ih => exact .append_text (fun _ _ => Op.read_of_none rfl) ih
  | comment _ ih => exact ih
  | interpolation _ ih =>
    refine .cons ?_ .nil ih
    rintro _ ⟨⟩
    exact ⟨_, rfl⟩
  | block _ _ ihc ih =>
    refine .cons (Op.read_ofBlock _ _ _ _ _) ?_ ih
    rw [Op.body_ofBlock]
    exact ihc
  | reference _ _ ih => exact .cons (Op.read_of_none rfl) .nil ih
  | missing _ _ _ _ ih => exact ih
  | inlined _ _ _ _ _ _ ihb ih => exact .cons (Op.read_of_none rfl) ihb ih

theorem Template.read_of_ofSource {source : String} {delimiters : Delimiters}
    {options : CompilerOptions} {partials : PartialSources} {t : Template}
    (h : ofSource source delimiters options partials = .ok t) : Op.All Op.Read t.ops := by
  obtain ⟨tree, ops, dependencies, -, hops, rfl⟩ := ofSource_eq_ok_iff.1 h
  exact hops.read

/-! ## Renderings -/

theorem Context.LambdaFree.logging {c : Context} {host : Host η} {kept : η}
    (h : c.LambdaFree host kept) (log : List String) : c.LambdaFree host.logging (kept, log) := by
  have hscoped : Scoped host.logging fun c' kept' => Within host c kept c' kept'.1 := by
    refine ⟨fun path h => ?_, fun h hv hmem h' => ?_, .closed, .entered⟩
    · rw [Context.resolve_logging]
      exact .look path h
    · rw [Context.resolve_logging] at hv
      exact .opened h hv hmem h'
  intro c' kept' path lambda hwithin
  rw [Context.resolve_logging]
  exact h c' kept'.1 path lambda (hwithin.of_scoped hscoped .start)

/-- Where no lookup yields a lambda, rendering leaves the record of what lambdas return. -/
theorem Template.render_unlogged (t : Template) {host : Host η} (resolver : Resolver σ)
    {c : Context} {kept : η} (hfree : c.LambdaFree host kept) (log : List String) (store : σ)
    (hread : ∀ op, resolver.Uses t.ops store op → op.Read) :
    (t.render host.logging resolver ⟨c, (kept, log), store⟩).2.host.2 = log := by
  let r : Renderer (η × List String) σ := ⟨t.options, host.logging, resolver⟩
  let origin : Scene (η × List String) σ := ⟨c, (kept, log), store⟩
  have hcontexts : Context.Follows Eq :=
    { push := fun v h => congrArg (·.push v) h
      depth := congrArg Context.partialDepth
      enter := fun depth h => congrArg (fun c => { c with partialDepth := depth }) h }
  have haccords : r.Accords (resolver.Uses t.ops store)
      (r.Beside t.ops origin Eq (fun kept kept' => kept = kept' ∧ kept.2 = log) Eq)
      fun _ => True := by
    have horigin : origin.context.LambdaFree r.host origin.host := hfree.logging log
    refine Renderer.accords_beside hcontexts horigin ?_ resolver.like_eq (r.writes_any _)
    intro op path hop hpath
    obtain ⟨raw, rfl⟩ := hread op hop path hpath
    refine ⟨raw, rfl, ?_⟩
    rintro c _ kept _ rfl ⟨rfl, hlog⟩
    rw [show r.host = host.logging from rfl, Context.resolve_logging]
    exact ⟨Matches.refl (fun _ => rfl) _, rfl, hlog⟩
  have hafter := (haccords.execute (1 + maxPartialDepth + host.logging.stack) t.ops
    (resolver.all_uses t.ops store) c c (kept, log) store (kept, log) store
    ⟨rfl, .start, resolver.visits_initial t.ops store, ⟨rfl, rfl⟩, rfl⟩).2.2.2
  exact hafter.hosts.2

namespace Engine

variable {e : Engine} {host : Host η} {base : Files} {c : Context} {kept : η}

theorem read_of_uses {start : List Op} (hstart : Op.All Op.Read start) {initial : Store}
    (hinitial : Uncached base initial) {op : Op} (h : e.resolver.Uses start initial op) :
    op.Read := by
  have hvisits : ∀ {ops store}, e.resolver.Leads start initial ops store →
      Uncached base store := by
    intro ops store h
    induction h with
    | here => exact hinitial
    | look _ _ ih | enter _ _ _ ih => exact (partialTemplate_uncached ih _).2
    | back _ _ _ ih => exact ih
  refine h.of_found hstart fun name _ store template _ ⟨_, hleads⟩ hfound => ?_
  have hanswer := ((e.follows Host.empty base).partialTemplate name (hvisits hleads)).2.symm.trans
    hfound
  split at hanswer
  · cases hanswer
  · cases hanswer
  · rename_i source _
    cases hcompile : Template.ofSource source e.options.delimiters e.options.compiler
        (e.partialSources base) with
    | error error => simp [interpreter, hcompile, Except.map] at hanswer
    | ok t =>
      obtain rfl : t = template := by simpa [interpreter, hcompile, Except.map] using hanswer
      exact Template.read_of_ofSource hcompile

theorem renders_unlogged (source : String) (hfree : c.LambdaFree host kept) :
    (e.renderInContext host.logging source ⟨c, (kept, []), .plain base⟩).2.host.2 = [] := by
  obtain ⟨hanswer, hnext⟩ := compileWith_uncached (e := e) (.plain base) source e.options.delimiters
  rw [renderInContext, bind_apply, onStore, compile]
  generalize e.compileWith source e.options.delimiters (.plain base) = compiled at hanswer hnext
  obtain ⟨_ | shared, next⟩ := compiled
  · rfl
  · exact Template.render_unlogged _ _ hfree [] next fun op huses =>
      read_of_uses (Template.read_of_ofSource hanswer.symm) hnext huses

/-- Whatever backs a store need know only the source, besides the partials. -/
theorem Backed.serves {b : Backing} {store : Store} (h : e.Backed base b store) {source : String}
    (hknown : b.Knows source) (hfree : c.LambdaFree host kept) :
    e.Serves host base kept (.renderInContext source c) store :=
  ⟨b, h, hknown, not_strays_of_nil (renders_unlogged source hfree)⟩

end Engine

end Mustache
