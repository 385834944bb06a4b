import Mustache.Engine
import Mustache.Proofs.Render.Closure
import Mustache.Proofs.Render.Interpretation

/-!
# Mustache.Proofs.Render.Correctness

Compiled templates render to what their trees mean.

`Expands.realizes`: instructions do what the tree that they were compiled from means, step by
step. It is proved once for both ways of compiling partials: `Pace` says how deep the rendering
may go when the interpretation may go so deep. `render_compile` is the case of templates whose
partials are looked up as they are rendered, for all trees, options, partials and contexts.
-/

namespace Mustache

open Node

variable {η σ : Type} {r : Renderer η σ} {i : Interpreter η} {partials : PartialSources}
  {Excused Allowed : Error → Prop} {Ready : σ → Prop} {I : Context → η → Prop}

/-- The renderer works for the same host and with the same options as the interpreter, and
compiles, from the sources that the interpreter reads, whatever it enters. -/
structure Renderer.Follows (r : Renderer η σ) (i : Interpreter η) (partials : PartialSources)
    (Ready : σ → Prop) : Prop where
  host : r.host = i.host
  lambdas : r.options.disableLambdas = i.disableLambdas
  indentation : r.options.disableIndentation = i.disableIndentation
  partialTemplate {store} (name : String) : Ready store →
    Ready (r.resolver.partialTemplate name store).2 ∧
      (r.resolver.partialTemplate name store).1 =
        match i.source name with
        | .error error => .error error
        | .ok none => .ok none
        | .ok (some source) =>
          (Template.ofSource source i.delimiters r.options partials).map some
  dynamicTemplate {store} (source : String) (delimiters : Delimiters) : Ready store →
    Ready (r.resolver.dynamicTemplate source delimiters store).2 ∧
      (r.resolver.dynamicTemplate source delimiters store).1 =
        Template.ofSource source delimiters r.options partials

/-! ## Single steps -/

section Steps

variable {c : Context} {kept : η}

theorem Renderer.Follows.resolve (hr : r.Follows i partials Ready) (path : String) :
    Realizes Excused Allowed Ready Eq (r.resolve (.ofString path)) (i.resolve c path) c kept := by
  refine .inr fun store hstore => .inr ⟨store, hstore, ?_⟩
  simp only [Interpreter.resolve, Renderer.resolve, hr.host]
  rcases c.resolve i.host (.ofString path) kept with ⟨_ | v, kept'⟩
  · rfl
  · exact ⟨v, rfl, rfl⟩

theorem Renderer.Follows.call (hr : r.Follows i partials Ready) (lambda : Lambda) (text : String) :
    Realizes Excused Allowed Ready Eq (r.call lambda text) (i.call lambda text) c kept := by
  refine .inr fun store hstore => .inr ⟨store, hstore, ?_⟩
  simp only [Renderer.call, Interpreter.call, hr.host]
  exact ⟨_, rfl, rfl⟩

theorem Realizes.onStore {α β : Type} {R : α → β → Prop} {answer : Except Error β}
    (step : σ → Except Error α × σ)
    (h : ∀ store, Ready store → (∃ e, (step store).1 = .error e ∧ Allowed e) ∨
      Ready (step store).2 ∧
        match answer with
        | .error e => (step store).1 = .error e
        | .ok b => ∃ a, R a b ∧ (step store).1 = .ok a) :
    Realizes Excused Allowed Ready R
      (fun scene => ((step scene.store).1, { scene with store := (step scene.store).2 }))
      (Meaning.ofExcept answer) c kept := by
  refine .inr fun store hstore => ?_
  obtain ⟨e, hfails, he⟩ | ⟨hready, hanswer⟩ := h store hstore
  · exact .inl ⟨e, _, congrArg (·, _) hfails, he⟩
  refine .inr ⟨_, hready, ?_⟩
  cases answer with
  | error e => simp only [Meaning.ofExcept, hanswer]
  | ok b =>
    obtain ⟨a, hab, ha⟩ := hanswer
    exact ⟨a, hab, by simp only [ha]⟩

theorem Renderer.Follows.indented (hr : r.Follows i partials Ready) (indent text : String) :
    r.indented indent text = i.indented indent text := by
  simp only [Renderer.indented, Interpreter.indented, hr.indentation]

end Steps

/-! ## Lists of instructions -/

section Lists

variable {enter : List Op → Render η σ String} {enter' : Context → Tree → Meaning η String}
  {c : Context} {kept : η}

theorem interpretAll_comment (s : String) (span : Span) (nodes : List Node) :
    interpretAll i enter' c (.comment s span :: nodes) = interpretAll i enter' c nodes := by
  simp only [interpretAll, interpret, pure_bind, String.empty_append, bind_pure]

theorem Realizes.cons {op : Op} {ops : List Op} {node : Node} {nodes : List Node}
    (h : Realizes Excused Allowed Ready Eq (Op.render r enter op) (interpret i enter' c node) c
      kept)
    (h' : ∀ s kept', interpret i enter' c node kept = (.ok s, kept') →
      Realizes Excused Allowed Ready Eq (Op.renderAll r enter ops) (interpretAll i enter' c nodes) c
        kept') :
    Realizes Excused Allowed Ready Eq (Op.renderAll r enter (op :: ops))
      (interpretAll i enter' c (node :: nodes)) c kept := by
  rw [Op.renderAll, interpretAll]
  exact h.append h'

end Lists

/-! ## Compiling -/

/-- Compiling cannot fail because of a partial, or every failure is allowed. -/
def PartialSources.Suffice (partials : PartialSources) (room : Nat) (delimiters : Delimiters)
    (Allowed : Error → Prop) : Prop :=
  (room = 0 ∨ partials.Complete delimiters) ∨ ∀ e, Allowed e

theorem PartialSources.Suffice.ofSource {options : CompilerOptions} {delimiters : Delimiters}
    (h : partials.Suffice options.room delimiters Allowed) {source : String} {tree : Tree}
    (htree : Tree.parse source.toList delimiters = .ok tree) :
    (∃ e, Template.ofSource source delimiters options partials = .error e ∧ Allowed e) ∨
      ∃ ops dependencies, Expands partials delimiters options.room [] tree [] ops dependencies ∧
        Template.ofSource source delimiters options partials
          = .ok ⟨options, ops, dependencies⟩ := by
  have hcompiled : ∀ {ops dependencies},
      Expands partials delimiters options.room [] tree [] ops dependencies →
        Template.ofSource source delimiters options partials
          = .ok ⟨options, ops, dependencies⟩ :=
    fun hops => ofSource_eq_ok_iff.2 ⟨tree, _, _, htree, hops, rfl⟩
  rcases h with htotal | hallowed
  · obtain ⟨ops, dependencies, hops⟩ := expands_total _ _ _ htotal [] tree []
    exact .inr ⟨ops, dependencies, hops, hcompiled hops⟩
  · cases htemplate : Template.ofSource source delimiters options partials with
    | error e => exact .inl ⟨e, rfl, hallowed e⟩
    | ok t =>
      obtain ⟨tree', ops, dependencies, htree', hops, rfl⟩ := ofSource_eq_ok_iff.1 htemplate
      obtain rfl : tree = tree' := Except.ok.inj (htree.symm.trans htree')
      exact .inr ⟨ops, dependencies, hops, rfl⟩

/-! ## Lambdas -/

section Lambdas

variable {c : Context} {kept : η} {enter : List Op → Render η σ String}
  {enter' : Context → Tree → Meaning η String}

/-- What a lambda makes of a text, if entering the template that it returns does what entering
its tree means. -/
theorem Renderer.Follows.expand (hr : r.Follows i partials Ready) {lambda : Lambda}
    {raw : String} {delimiters : Delimiters}
    (htotal : partials.Suffice r.options.room delimiters Allowed)
    (henter : ∀ source tree ops dependencies kept',
      (i.host.call lambda raw kept).1 = .text source →
      Tree.parse source.toList delimiters = .ok tree →
      Expands partials delimiters r.options.room [] tree [] ops dependencies →
        Realizes Excused Allowed Ready Eq (enter ops) (enter' c tree) c kept') :
    Realizes Excused Allowed Ready Eq (r.expand enter lambda raw delimiters)
      (i.answer enter' c lambda raw delimiters) c kept := by
  refine (hr.call lambda raw).bind fun v _ kept₁ hcall hv => ?_
  subst hv
  have hgiven : (i.host.call lambda raw kept).1 = v := Except.ok.inj (congrArg Prod.fst hcall)
  cases v with
  | text source =>
    refine Realizes.bind (R := fun template tree => ∃ dependencies,
      Expands partials delimiters r.options.room [] tree [] template.ops dependencies)
      (.onStore _ fun store hstore => ?_) ?_
    · obtain ⟨hready, hanswer⟩ := hr.dynamicTemplate source delimiters hstore
      rw [hanswer]
      cases htree : Tree.parse source.toList delimiters with
      | error e => exact .inr ⟨hready, by rw [Template.ofSource, htree]⟩
      | ok tree =>
        refine (htotal.ofSource htree).imp_right ?_
        rintro ⟨ops, dependencies, hops, htemplate⟩
        exact ⟨hready, ⟨r.options, ops, dependencies⟩, ⟨dependencies, hops⟩, htemplate⟩
    · rintro template tree kept₂ htree ⟨dependencies, hops⟩
      exact henter source tree _ dependencies kept₂ hgiven (congrArg Prod.fst htree) hops
  | _ => exact .pure rfl

end Lambdas

/-! ## Sections -/

section Sections

variable {c : Context} {kept : η} {enter : List Op → Render η σ String}
  {enter' : Context → Tree → Meaning η String} {value : Value}

theorem Renderer.Follows.interpolate (hr : r.Follows i partials Ready)
    (hlambda : ∀ lambda, value = .lambda lambda → i.disableLambdas = false →
      Realizes Excused Allowed Ready Eq (r.expand enter lambda "" .standard)
        (i.answer enter' c lambda "" .standard) c kept) :
    Realizes Excused Allowed Ready Eq (r.interpolate enter value) (i.written enter' c value) c
      kept := by
  cases value with
  | lambda lambda =>
    simp only [Renderer.interpolate, Interpreter.written, hr.lambdas]
    split
    · exact .pure rfl
    · rename_i henabled
      exact hlambda lambda rfl (by simpa using henabled)
  | _ => exact .pure rfl

theorem Renderer.Follows.block (hr : r.Follows i partials Ready) {body : List Op}
    {text : Context → Meaning η String} {raw : String} {delimiters : Delimiters}
    (hbody : ∀ frame ∈ value.frames, ∀ kept, I c kept →
      Realizes Excused Allowed Ready Eq (Op.renderAll r enter body) (text (c.push frame))
        (c.push frame) kept ∧ (text (c.push frame)).Keeps (I c) kept)
    (hlambda : ∀ lambda, value = .lambda lambda → i.disableLambdas = false →
      Realizes Excused Allowed Ready Eq (r.expand enter lambda raw delimiters)
        (i.answer enter' c lambda raw delimiters) c kept)
    (hkept : I c kept) :
    Realizes Excused Allowed Ready Eq
      (match value with
      | .lambda lambda =>
        if r.options.disableLambdas then Renderer.withFrame value (Op.renderAll r enter body)
        else r.expand enter lambda raw delimiters
      | .list items => Renderer.eachFrame (Op.renderAll r enter body) items
      | _ =>
        if value.isTruthy then Renderer.withFrame value (Op.renderAll r enter body) else pure "")
      (i.sectionText enter' c value text raw delimiters) c kept := by
  cases value with
  | lambda lambda =>
    simp only [Interpreter.sectionText, hr.lambdas]
    split
    · exact (hbody _ (by simp [Value.frames, Value.isTruthy]) kept hkept).1.withFrame
    · rename_i henabled
      exact hlambda lambda rfl (by simpa using henabled)
  | list items => exact Realizes.eachFrame hbody hkept
  | _ =>
    simp only [Interpreter.sectionText]
    split
    · rename_i htruthy
      exact (hbody _ (by simp [Value.frames, htruthy]) kept hkept).1.withFrame
    · exact .pure rfl

def Renderer.Expanding (r : Renderer η σ) (i : Interpreter η) (Excused Allowed : Error → Prop)
    (Ready : σ → Prop) (enter : List Op → Render η σ String)
    (enter' : Context → Tree → Meaning η String) (c : Context) (kept : η) (path raw : String)
    (delimiters : Delimiters) : Prop :=
  ∀ lambda kept', i.resolve c path kept = (.ok (.lambda lambda), kept') →
    i.disableLambdas = false →
    Realizes Excused Allowed Ready Eq (r.expand enter lambda raw delimiters)
      (i.answer enter' c lambda raw delimiters) c kept'

theorem Renderer.Follows.interpolation (hr : r.Follows i partials Ready) {path : String}
    (hlambda : r.Expanding i Excused Allowed Ready enter enter' c kept path "" .standard)
    (escaped : Bool) (span : Span) :
    Realizes Excused Allowed Ready Eq (Op.render r enter (.interpolation (.ofString path) escaped))
      (interpret i enter' c (.interpolation path escaped span)) c kept := by
  rw [Op.render, interpret]
  refine (hr.resolve path).bind fun v _ kept₁ hv hvv => ?_
  subst hvv
  refine (hr.interpolate fun lambda hl => ?_).bind fun text _ _ _ htext => ?_
  · subst hl
    exact hlambda lambda kept₁ hv
  · subst htext
    exact .pure rfl

theorem Renderer.Follows.ofBlock (hr : r.Follows i partials Ready) (hI : Scoped i.host I)
    {path raw : String} {delimiters : Delimiters} {inverted : Bool}
    (hlambda : inverted = false →
      r.Expanding i Excused Allowed Ready enter enter' c kept path raw delimiters)
    (hkept : I c kept) {body : List Op} {children : List Node}
    (hin : ∀ kept, I c kept →
      Realizes Excused Allowed Ready Eq (Op.renderAll r enter body)
        (interpretAll i enter' c children) c kept)
    (hframe : ∀ frame kept, I c kept → I (c.push frame) kept →
      Realizes Excused Allowed Ready Eq (Op.renderAll r enter body)
        (interpretAll i enter' (c.push frame) children) (c.push frame) kept ∧
        (interpretAll i enter' (c.push frame) children).Keeps (I c) kept)
    (opening closing : Span) :
    Realizes Excused Allowed Ready Eq
      (Op.render r enter (Op.ofBlock path inverted body raw delimiters))
      (interpret i enter' c (.block path inverted children raw delimiters opening closing)) c
      kept := by
  rw [interpret]
  cases inverted with
  | true =>
    rw [Op.ofBlock, if_pos rfl, Op.render]
    refine (hr.resolve path).bind fun v _ kept₁ hv hvv => ?_
    subst hvv
    simp only [if_true]
    split
    · exact .pure rfl
    · exact hin kept₁ (Interpreter.keeps_resolve hI path hkept _ _ hv)
  | false =>
    rw [Op.ofBlock, if_neg (by simp), Op.render]
    refine (hr.resolve path).bind fun v _ kept₁ hv hvv => ?_
    subst hvv
    simp only [Bool.false_eq_true, if_false]
    refine hr.block (I := I) (fun frame hmem kept₂ h₂ => ?_) (fun lambda hl => ?_)
      (Interpreter.keeps_resolve hI path hkept _ _ hv)
    · exact hframe frame kept₂ h₂ (hI.push hkept (congrArg Prod.fst hv) hmem h₂)
    · subst hl
      exact hlambda rfl lambda kept₁ hv

end Sections

/-! ## Partials -/

section Partials

variable {c : Context} {kept : η}

def Template.CompiledFrom (t : Template) (r : Renderer η σ) (i : Interpreter η)
    (partials : PartialSources) (tree : Tree) : Prop :=
  ∃ dependencies, Expands partials i.delimiters r.options.room [] tree [] t.ops dependencies

theorem Renderer.Follows.partialTemplate_partialTree (hr : r.Follows i partials Ready)
    (htotal : partials.Suffice r.options.room i.delimiters Allowed) (name : String) :
    Realizes Excused Allowed Ready
      (Option.Rel fun (t : Template) tree => t.CompiledFrom r i partials tree)
      (r.partialTemplate name) (Meaning.ofExcept (i.partialTree name)) c kept := by
  refine .onStore _ fun store hstore => ?_
  obtain ⟨hready, hanswer⟩ := hr.partialTemplate name hstore
  rw [hanswer, Interpreter.partialTree]
  cases i.source name with
  | error e => exact .inr ⟨hready, rfl⟩
  | ok source =>
    cases source with
    | none => exact .inr ⟨hready, none, .none, rfl⟩
    | some source =>
      dsimp only
      cases htree : Tree.parse source.toList i.delimiters with
      | error e => exact .inr ⟨hready, by simp [Template.ofSource, htree, Except.map]⟩
      | ok tree =>
        obtain ⟨e, htemplate, he⟩ | ⟨ops, dependencies, hops, htemplate⟩ := htotal.ofSource htree
        · exact .inl ⟨e, by rw [htemplate]; rfl, he⟩
        · refine .inr ⟨hready, some ⟨r.options, ops, dependencies⟩, .some ⟨dependencies, hops⟩, ?_⟩
          rw [htemplate]
          rfl

theorem Renderer.Follows.partialRef (hr : r.Follows i partials Ready)
    (htotal : partials.Suffice r.options.room i.delimiters Allowed)
    {enter : List Op → Render η σ String} {enter' : Context → Tree → Meaning η String}
    {name : String} (henter : ∀ (t : Template) tree, c.partialDepth < maxPartialDepth →
      i.partialTree name = .ok (some tree) → t.CompiledFrom r i partials tree →
        Realizes Excused Allowed Ready Eq (enter t.ops)
          (enter' { c with partialDepth := c.partialDepth + 1 } tree)
          { c with partialDepth := c.partialDepth + 1 } kept)
    (indent : String) (span : Span) :
    Realizes Excused Allowed Ready Eq (Op.render r enter (.partialRef name indent))
      (interpret i enter' c (.partialTag name indent span)) c kept := by
  rw [Op.render, interpret, Interpreter.partialText]
  by_cases hdepth : c.partialDepth < maxPartialDepth
  · rw [if_pos hdepth]
    refine .insidePartial hdepth ?_
    refine (hr.partialTemplate_partialTree htotal name).bind fun t tree kept₁ ht hrel => ?_
    cases hrel with
    | none => exact .pure rfl
    | @some t tree hrel =>
      obtain rfl : kept = kept₁ := congrArg Prod.snd ht
      refine (henter t tree hdepth (congrArg Prod.fst ht) hrel).bind fun text _ _ _ htext => ?_
      exact .pure (by rw [hr.indented, htext])
  · rw [if_neg hdepth]
    exact .insidePartial_throw hdepth

theorem Renderer.Follows.inlined (hr : r.Follows i partials Ready)
    {enter : List Op → Render η σ String} {enter' : Context → Tree → Meaning η String}
    {name : String} {body : List Op} {tree : Tree} (htree : i.partialTree name = .ok (some tree))
    (hbody : c.partialDepth < maxPartialDepth →
      Realizes Excused Allowed Ready Eq (Op.renderAll r enter body)
        (enter' { c with partialDepth := c.partialDepth + 1 } tree)
        { c with partialDepth := c.partialDepth + 1 } kept)
    (indent : String) (span : Span) :
    Realizes Excused Allowed Ready Eq (Op.render r enter (.inlined name indent body))
      (interpret i enter' c (.partialTag name indent span)) c kept := by
  rw [Op.render, interpret, Interpreter.partialText, htree]
  by_cases hdepth : c.partialDepth < maxPartialDepth
  · rw [if_pos hdepth]
    refine .insidePartial hdepth ?_
    refine (hbody hdepth).bind fun text _ _ _ htext => ?_
    exact .pure (by rw [hr.indented, htext])
  · rw [if_neg hdepth]
    exact .insidePartial_throw hdepth

end Partials

/-! ## Compiled trees -/

/-- How deep rendering may go where interpreting may go as deep as it is said to. They go equally
deep as long as no partial is compiled into another template. Where no lookup yields a lambda, it
is enough that rendering may go as deep, and that both meet the limit for partials first. -/
inductive Pace (r : Renderer η σ) (i : Interpreter η) (I : Context → η → Prop) (c : Context) :
    Nat → Nat → Prop where
  | same {n} : r.options.room = 0 → (∀ c kept, I c kept) → Pace r i I c n n
  | ahead {n m} : NoLambda i.host I → m ≤ n → maxPartialDepth ≤ m + c.partialDepth →
      Pace r i I c n m

section Pace

variable {c : Context} {kept : η} {n m : Nat}

theorem Pace.push (h : Pace r i I c n m) (frame : Value) : Pace r i I (c.push frame) n m := by
  cases h with
  | same hroom hI => exact .same hroom hI
  | ahead hno hle hdepth => exact .ahead hno hle hdepth

theorem Pace.enter (h : Pace r i I c n m) (hdepth : c.partialDepth < maxPartialDepth) :
    (n = 0 ∧ m = 0) ∨ ∃ n' m', n = n' + 1 ∧ m = m' + 1 ∧
      Pace r i I { c with partialDepth := c.partialDepth + 1 } n' m' := by
  cases h with
  | same hroom hI =>
    cases n with
    | zero => exact .inl ⟨rfl, rfl⟩
    | succ n => exact .inr ⟨n, n, rfl, rfl, .same hroom hI⟩
  | ahead hno hle hmax =>
    obtain ⟨m, rfl⟩ : ∃ m', m = m' + 1 := Nat.exists_eq_add_one_of_ne_zero (by omega)
    obtain ⟨n, rfl⟩ : ∃ n', n = n' + 1 := Nat.exists_eq_add_one_of_ne_zero (by omega)
    exact .inr ⟨n, m, rfl, rfl, .ahead hno (by omega) (by show _ ≤ m + (_ + 1); omega)⟩

theorem Pace.inline (h : Pace r i I c n m) (hroom : r.options.room ≠ 0)
    (hdepth : c.partialDepth < maxPartialDepth) :
    ∃ m', m = m' + 1 ∧ Pace r i I { c with partialDepth := c.partialDepth + 1 } n m' := by
  cases h with
  | same h _ => exact absurd h hroom
  | ahead hno hle hmax =>
    obtain ⟨m, rfl⟩ : ∃ m', m = m' + 1 := Nat.exists_eq_add_one_of_ne_zero (by omega)
    exact ⟨m, rfl, .ahead hno (by omega) (by show _ ≤ m + (_ + 1); omega)⟩

theorem Pace.keeps (h : Pace r i I c n m) (hI : Scoped i.host I) (hkept : I c kept)
    (node : Node) : (interpret i (Tree.interpret i m) c node).Keeps (I c) kept := by
  cases h with
  | same _ hall => exact fun _ _ _ => hall _ _
  | ahead hno _ _ => exact keeps_interpret hI hno m node hkept

theorem Pace.keepsAll (h : Pace r i I c n m) (hI : Scoped i.host I) (hkept : I c kept)
    (nodes : List Node) : (interpretAll i (Tree.interpret i m) c nodes).Keeps (I c) kept := by
  cases h with
  | same _ hall => exact fun _ _ _ => hall _ _
  | ahead hno _ _ =>
    exact keeps_interpretAll hI hno (keeps_treeInterpret hI hno m) nodes c kept hkept

/-- Where a lookup may yield a lambda, both go equally deep. -/
theorem Pace.of_lambda (h : Pace r i I c n m) {path : String} (hkept : I c kept)
    {lambda : Lambda} {kept' : η}
    (hv : i.resolve c path kept = (.ok (.lambda lambda), kept')) :
    r.options.room = 0 ∧ n = m ∧ ∀ c kept, I c kept := by
  cases h with
  | same hroom hall => exact ⟨hroom, rfl, hall⟩
  | ahead hno _ _ => exact absurd (congrArg Prod.fst hv) (hno c kept path lambda hkept)

end Pace

section Realizes

variable (hr : r.Follows i partials Ready) (hI : Scoped i.host I)
include hr

theorem Pace.expanding {c : Context} {kept : η} {n m : Nat} (h : Pace r i I c n m)
    (hkept : I c kept)
    (henter : r.options.room = 0 → (∀ c kept, I c kept) → ∀ {delimiters tree ops dependencies kept},
      Expands partials delimiters 0 [] tree [] ops dependencies →
        Realizes Excused Allowed Ready Eq (r.execute n ops) (Tree.interpret i n c tree) c kept)
    (path raw : String) (delimiters : Delimiters) :
    r.Expanding i Excused Allowed Ready (r.execute n) (Tree.interpret i m) c kept path raw
      delimiters := by
  intro lambda kept' hv _
  obtain ⟨hroom, rfl, hall⟩ := h.of_lambda hkept hv
  refine hr.expand (.inl (.inl hroom)) fun _ _ _ _ _ _ _ hops => ?_
  exact henter hroom hall (hroom ▸ hops)

include hI

/-- Instructions do what the tree means that they were compiled from. -/
theorem Expands.realizes (hsource : partials.source = i.source)
    (htotal : r.options.room = 0 ∨ partials.Complete i.delimiters)
    (hexcused : r.options.room ≠ 0 → ∀ name, Excused (.partialRecursion name maxPartialDepth))
    (n : Nat) :
    ∀ {delimiters left enclosing nodes known ops known'},
      Expands partials delimiters left enclosing nodes known ops known' →
      (left = 0 ∨ r.options.room ≠ 0 ∧ delimiters = i.delimiters) →
      ∀ {m c kept}, Pace r i I c n m → I c kept →
        Realizes Excused Allowed Ready Eq (Op.renderAll r (r.execute n) ops)
          (interpretAll i (Tree.interpret i m) c nodes) c kept := by
  -- The outer induction goes into the templates that are entered, the inner one into the
  -- sections and partials that are part of the instructions.
  induction n using Nat.strongRecOn with
  | ind n ihn =>
    intro delimiters left enclosing nodes known ops known' h
    have henter : ∀ {c}, r.options.room = 0 → (∀ c kept, I c kept) →
        ∀ {delimiters tree ops dependencies kept},
          Expands partials delimiters 0 [] tree [] ops dependencies →
            Realizes Excused Allowed Ready Eq (r.execute n ops) (Tree.interpret i n c tree) c
              kept := by
      intro c hroom hall delimiters tree ops dependencies kept hops
      cases n with
      | zero => exact .throw _
      | succ n => exact ihn n (by omega) hops (.inl rfl) (.same hroom hall) (hall _ _)
    induction h with
    | nil =>
      intro _ m c kept _ _
      rw [Op.renderAll, interpretAll]
      exact .pure rfl
    | text _ ih =>
      intro hleft m c kept hpace hkept
      rw [renderAll_append_text, interpretAll]
      refine Realizes.append ?_ fun s kept' hs => ih hleft hpace (hpace.keeps hI hkept _ s kept' hs)
      rw [Op.render, interpret]
      exact .pure rfl
    | comment _ ih =>
      intro hleft m c kept hpace hkept
      rw [interpretAll_comment]
      exact ih hleft hpace hkept
    | interpolation _ ih =>
      intro hleft m c kept hpace hkept
      refine .cons ?_ fun s kept' hs => ih hleft hpace (hpace.keeps hI hkept _ s kept' hs)
      exact hr.interpolation (hpace.expanding hr hkept henter _ _ _) _ _
    | @block _ _ _ _ children _ _ _ _ _ _ _ _ _ _ _ _ ihc ih =>
      intro hleft m c kept hpace hkept
      refine .cons ?_ fun s kept' hs => ih hleft hpace (hpace.keeps hI hkept _ s kept' hs)
      refine hr.ofBlock hI (fun _ => hpace.expanding hr hkept henter _ _ _) hkept
        (fun kept₁ h₁ => ihc hleft hpace h₁) (fun frame kept₁ h₁ hframe => ?_) _ _
      exact ⟨ihc hleft (hpace.push frame) hframe,
        ((hpace.push frame).keepsAll hI hframe children).imp fun _ => hI.pop h₁⟩
    | reference _ _ ih =>
      intro hleft m c kept hpace hkept
      refine .cons ?_ fun s kept' hs => ih hleft hpace (hpace.keeps hI hkept _ s kept' hs)
      refine hr.partialRef (.inl htotal) ?_ _ _
      rintro t tree hdepth - ⟨dependencies, hops⟩
      rcases hpace.enter hdepth with ⟨rfl, rfl⟩ | ⟨n, m, rfl, rfl, hpace'⟩
      · exact .throw _
      · refine ihn n (by omega) hops ?_ hpace' (hI.enter _ hkept)
        by_cases hroom : r.options.room = 0
        · exact .inl hroom
        · exact .inr ⟨hroom, rfl⟩
    | @missing _ _ name _ _ nodes _ _ _ _ _ _ hmissing _ ih =>
      intro hleft m c kept hpace hkept
      obtain ⟨hroom, rfl⟩ := hleft.resolve_left (by omega)
      have htree : i.partialTree name = .ok none := by
        rw [Interpreter.partialTree, ← hsource, hmissing]
      rw [interpretAll, interpret, Interpreter.partialText, htree]
      by_cases hdepth : c.partialDepth < maxPartialDepth
      · rw [if_pos hdepth]
        exact .empty_append (ih (.inr ⟨hroom, rfl⟩) hpace hkept)
      · exact .inl ⟨_, kept, by rw [if_neg hdepth]; rfl, hexcused hroom _⟩
    | @inlined _ _ name _ _ _ _ tree _ _ _ _ _ _ _ _ hpartial hparse _ _ ihb ih =>
      intro hleft m c kept hpace hkept
      obtain ⟨hroom, rfl⟩ := hleft.resolve_left (by omega)
      have htree : i.partialTree name = .ok (some tree) := by
        simp only [Interpreter.partialTree, ← hsource, hpartial, hparse, Except.map]
      refine .cons ?_ fun s kept' hs =>
        ih (.inr ⟨hroom, rfl⟩) hpace (hpace.keeps hI hkept _ s kept' hs)
      refine hr.inlined htree (fun hdepth => ?_) _ _
      obtain ⟨m, rfl, hpace'⟩ := hpace.inline hroom hdepth
      exact ihb (.inr ⟨hroom, rfl⟩) hpace' (hI.enter _ hkept)

end Realizes

/-! ## Whole templates -/

/-- What a tree means, followed as deep as templates are rendered. -/
def Tree.meaning (i : Interpreter η) (c : Context) (tree : Tree) : Meaning η String :=
  Tree.interpret i (1 + maxPartialDepth + i.host.stack) c tree

/-- A template renders to what the tree means that it was compiled from, or the tree fails in a
way that is excused. -/
theorem Expands.render_realizes {tree : Tree} {t : Template} {host : Host η}
    {resolver : Resolver σ} {delimiters : Delimiters} {c : Context} {kept : η}
    (h : Expands partials delimiters t.options.room [] tree [] t.ops t.dependencies)
    (hr : (Renderer.mk t.options host resolver).Follows i partials Ready) (hI : Scoped i.host I)
    (hsource : partials.source = i.source)
    (hroom : t.options.room = 0 ∧ (∀ c kept, I c kept) ∨
      delimiters = i.delimiters ∧ partials.Complete i.delimiters ∧ NoLambda i.host I ∧
        ∀ name, Excused (.partialRecursion name maxPartialDepth)) (hkept : I c kept) :
    Realizes Excused Allowed Ready Eq (t.render host resolver) (tree.meaning i c) c kept := by
  obtain rfl : host = i.host := hr.host
  rw [Template.render, Tree.meaning, Nat.add_assoc, Nat.one_add]
  have hpace : Pace ⟨t.options, i.host, resolver⟩ i I c (maxPartialDepth + i.host.stack)
      (maxPartialDepth + i.host.stack) := by
    rcases hroom with ⟨hzero, hall⟩ | ⟨-, -, hno, -⟩
    · exact .same hzero hall
    · exact .ahead hno (Nat.le_refl _) (by omega)
  refine h.realizes hr hI hsource (hroom.imp And.left fun h => h.2.1) (fun hne => ?_) _ ?_ hpace
    hkept
  · exact (hroom.resolve_left fun h => hne h.1).2.2.2
  · by_cases hzero : t.options.room = 0
    · exact .inl hzero
    · exact .inr ⟨hzero, (hroom.resolve_left fun h => hzero h.1).1⟩

end Mustache
