import Mustache.Proofs.Render.Accord
import Mustache.Proofs.Text.Html
import Mustache.Proofs.Tree.Trimming

/-!
# Mustache.Proofs.Render.Escaping

Templates that bring no markup into what they are rendered to.

A source is harmless if its texts are plain and all its variables are escaped. Then the instructions
that it is compiled to are safe (`Expands.safe`): what they write are plain texts, escaped values
and blanks. So whatever the values are, a rendering that comes to safe instructions only gives a
text in which nothing is significant but the ampersands of entities (`Template.render_escaped`).
-/

namespace Mustache

open Node Text

variable {η σ : Type}

/-! ## Harmless sources -/

def Node.isUnescaped : Node → Bool
  | .interpolation _ escaped _ => !escaped
  | _ => false

/-- The texts hold nothing significant, and every variable is escaped. -/
def Tree.Harmless (tree : Tree) : Prop :=
  (∀ s ∈ textsAll tree, Plain s) ∧ ∀ node ∈ leavesAll tree, node.isUnescaped = false

instance (tree : Tree) : Decidable tree.Harmless := inferInstanceAs (Decidable (_ ∧ _))

/-- The template is compiled from a harmless source, and so are the partials in it. -/
def Template.Harmless (t : Template) : Prop :=
  ∃ source delimiters options partials tree,
    Template.ofSource source delimiters options partials = .ok t ∧
    Tree.parse source.toList delimiters = .ok tree ∧ tree.Harmless ∧
    ∀ name source' tree',
      Consults partials delimiters options.room [] (partialNamesAll tree) name →
      partials.source name = .ok (some source') →
      Tree.parse source'.toList delimiters = .ok tree' → tree'.Harmless

theorem Template.harmless_of_off {source : String} {delimiters : Delimiters}
    {options : CompilerOptions} {partials : PartialSources} {t : Template}
    (hoff : options.includePartialCode = false)
    (ht : ofSource source delimiters options partials = .ok t)
    (htree : ∃ tree, Tree.parse source.toList delimiters = .ok tree ∧ tree.Harmless) :
    t.Harmless := by
  obtain ⟨tree, hparse, htree⟩ := htree
  refine ⟨source, delimiters, options, partials, tree, ht, hparse, htree, ?_⟩
  intro name _ _ hname
  rw [CompilerOptions.room, if_neg (hoff ▸ Bool.false_ne_true)] at hname
  cases hname

/-- What the node writes by itself is plain. -/
def Node.Safe : Node → Prop
  | .text s => Plain s.toList
  | .interpolation _ escaped _ => escaped = true
  | .partialTag _ indent _ => Plain indent.toList
  | _ => True

/-- What the instruction writes by itself is plain, and its path is one that can be read. -/
def Op.Safe : Op → Prop
  | .text s => Plain s.toList
  | .interpolation path escaped => escaped = true ∧ ∃ raw, path = .ofString raw
  | .block path _ _ _ | .inverted path _ => ∃ raw, path = .ofString raw
  | .partialRef _ indent | .inlined _ indent _ => Plain indent.toList

theorem Op.Safe.path {op : Op} (h : op.Safe) {path : KeyPath} (hpath : op.path? = some path) :
    ∃ raw, path = .ofString raw := by
  cases op with
  | interpolation path' escaped =>
    cases hpath
    exact h.2
  | block | inverted =>
    cases hpath
    exact h
  | _ => cases hpath

theorem SpannedToken.plain_leading (source : List Char) (tag : SpannedToken) :
    Plain (tag.leading source) := by
  intro c hc
  rw [leading] at hc
  split at hc
  · rename_i hlone
    have hblank := hlone.2.1 c hc
    simp only [isIndent, Bool.or_eq_true, beq_iff_eq] at hblank
    obtain rfl | rfl := hblank <;> decide
  · cases hc

theorem Tree.Harmless.safe {source : List Char} {delimiters : Delimiters} {tree : Tree}
    (h : tree.Harmless) (hparse : Tree.parse source delimiters = .ok tree) :
    ∀ node ∈ leavesAll tree, node.Safe := by
  obtain ⟨pair, rfl⟩ := usable_of_parse hparse
  obtain ⟨items, texts, -, -, hleaves⟩ := parse_laidOut hparse
  intro node hnode
  cases node with
  | text s => exact h.1 s.toList (List.mem_filterMap.2 ⟨_, hnode, rfl⟩)
  | interpolation path escaped span =>
    simpa [isUnescaped, Node.Safe] using h.2 _ hnode
  | partialTag name indent span =>
    rw [hleaves] at hnode
    obtain ⟨tag, -, -, -, rfl⟩ := partial_of_mem_laidOut hnode
    simpa [Node.Safe] using tag.plain_leading source
  | _ => trivial

/-! ## Compiling -/

section Compiling

variable {partials : PartialSources} {delimiters : Delimiters}

theorem safe_ofBlock (path : String) (inverted : Bool) (body : List Op) (raw : String)
    (pair : Delimiters) : (Op.ofBlock path inverted body raw pair).Safe := by
  cases inverted <;> exact ⟨path, rfl⟩

/-- The nodes are safe, and so are those of the partials that are compiled into them. -/
structure SafeNodes (partials : PartialSources) (delimiters : Delimiters) (left : Nat)
    (enclosing : List String) (nodes : List Node) : Prop where
  leaves : ∀ node ∈ leavesAll nodes, node.Safe
  partials : ∀ name source tree,
    Consults partials delimiters left enclosing (partialNamesAll nodes) name →
    partials.source name = .ok (some source) → Tree.parse source.toList delimiters = .ok tree →
    ∀ node ∈ leavesAll tree, node.Safe

namespace SafeNodes

variable {left : Nat} {enclosing : List String} {node : Node} {nodes : List Node}

theorem tail (h : SafeNodes partials delimiters left enclosing (node :: nodes)) :
    SafeNodes partials delimiters left enclosing nodes where
  leaves other hother := h.leaves other (List.mem_append_right _ hother)
  partials name source tree hname :=
    h.partials name source tree (consults_append_iff.2 (.inr hname))

theorem children {path : String} {inverted : Bool} {children : List Node} {raw : String}
    {pair : Delimiters} {opening closing : Span}
    (h : SafeNodes partials delimiters left enclosing
      (.block path inverted children raw pair opening closing :: nodes)) :
    SafeNodes partials delimiters left enclosing children where
  leaves other hother := h.leaves other (List.mem_append_left _ hother)
  partials name source tree hname :=
    h.partials name source tree (consults_append_iff.2 (.inl hname))

theorem entered {name indent source : String} {span : Span} {tree : Tree}
    (h : SafeNodes partials delimiters (left + 1) enclosing (.partialTag name indent span :: nodes))
    (hname : name ∉ enclosing) (hsource : partials.source name = .ok (some source))
    (htree : Tree.parse source.toList delimiters = .ok tree) :
    SafeNodes partials delimiters left (name :: enclosing) tree where
  leaves := h.partials name source tree (.tag List.mem_cons_self hname) hsource htree
  partials other source' tree' hother :=
    h.partials other source' tree' (.inside List.mem_cons_self hname hsource htree hother)

theorem head (h : SafeNodes partials delimiters left enclosing (node :: nodes))
    (hleaf : node.leaves = [node]) : node.Safe :=
  h.leaves node (List.mem_append_left _ (hleaf ▸ List.mem_singleton_self node))

end SafeNodes

/-- Safe nodes are compiled to safe instructions. -/
theorem Expands.safe {left : Nat} {enclosing : List String} {nodes : List Node}
    {known known' : List Dependency} {ops : List Op}
    (h : Expands partials delimiters left enclosing nodes known ops known')
    (hsafe : SafeNodes partials delimiters left enclosing nodes) : Op.All Op.Safe ops := by
  induction h with
  | nil => exact .nil
  | @text left enclosing s nodes known ops known' _ ih =>
    refine .append_text (fun s' hs' => ?_) (ih hsafe.tail)
    have hfirst : Plain s.toList := hsafe.head rfl
    have hrest : Plain s'.toList := by
      rcases hs' with rfl | hs'
      · exact fun _ => nofun
      · exact hs'
    simpa [Op.Safe] using hfirst.append hrest
  | comment _ ih => exact ih hsafe.tail
  | interpolation _ ih => exact .cons ⟨hsafe.head rfl, _, rfl⟩ .nil (ih hsafe.tail)
  | block _ _ ihc ih =>
    refine .cons (safe_ofBlock ..) ?_ (ih hsafe.tail)
    rw [Op.body_ofBlock]
    exact ihc hsafe.children
  | reference _ _ ih => exact .cons (hsafe.head rfl) .nil (ih hsafe.tail)
  | missing _ _ _ _ ih => exact ih hsafe.tail
  | inlined hname _ hsource htree _ _ ihb ih =>
    exact .cons (hsafe.head rfl) (ihb (hsafe.entered hname hsource htree)) (ih hsafe.tail)

end Compiling

theorem Template.Harmless.safe {t : Template} (h : t.Harmless) : Op.All Op.Safe t.ops := by
  obtain ⟨source, delimiters, options, partials, tree, ht, hparse, htree, hpartials⟩ := h
  rw [ofSource, hparse] at ht
  obtain ⟨ops, dependencies, hops, rfl⟩ := compile_eq_ok_iff.1 ht
  exact hops.safe ⟨htree.safe hparse, fun name source' tree' hname hsource hparse' =>
    (hpartials name source' tree' hname hsource hparse').safe hparse'⟩

/-! ## Rendering -/

section Rendering

variable {r : Renderer η σ} {start : List Op} {origin : Scene η σ}

theorem Renderer.writes_pieces (hsafe : ∀ op, r.resolver.Uses start origin.store op → op.Safe) :
    r.Writes (r.resolver.Uses start origin.store) fun text => Pieces text.toList where
  empty := .nil
  append h h' := by
    rw [String.toList_append]
    exact h.append h'
  text h := .of_plain (hsafe _ h)
  plain _ h := absurd (hsafe _ h).1 Bool.false_ne_true
  escaped value := by
    rw [String.toList_ofList]
    exact pieces_escapeHtml _
  indented := by
    intro name indent text huses htext
    have hindent : Plain indent.toList := by
      rcases huses with huses | ⟨body, huses⟩ <;> exact hsafe _ huses
    rw [indented]
    split
    · rw [String.toList_append]
      exact (Pieces.of_plain hindent).append htext
    · rw [String.toList_ofList]
      exact htext.indentFrom hindent true

theorem Renderer.accords_safe (hfree : origin.context.LambdaFree r.host origin.host)
    (hsafe : ∀ op, r.resolver.Uses start origin.store op → op.Safe) :
    r.Accords (r.resolver.Uses start origin.store) (r.Beside start origin Eq Eq Eq)
      fun text => Pieces text.toList := by
  have hcontexts : Context.Follows Eq :=
    { push := fun v h => congrArg (·.push v) h
      depth := congrArg Context.partialDepth
      enter := fun depth h => congrArg (fun c => { c with partialDepth := depth }) h }
  refine accords_beside hcontexts hfree ?_ r.resolver.like_eq (writes_pieces hsafe)
  intro op path hop hpath
  obtain ⟨raw, rfl⟩ := (hsafe op hop).path hpath
  refine ⟨raw, rfl, ?_⟩
  rintro c _ kept _ rfl rfl
  exact ⟨Matches.refl (fun _ => rfl) _, rfl⟩

end Rendering

/-- A harmless template, where all partials that a rendering finds are harmless too, renders to a
text without markup, whatever the values are; no lookup may yield a lambda. Escaping is undone by
reading its entities, so no two texts are escaped alike. -/
theorem Template.render_escaped (t : Template) (host : Host η) (resolver : Resolver σ)
    (scene : Scene η σ) (ht : t.Harmless)
    (hpartials : ∀ name indent store template,
      resolver.Uses t.ops scene.store (.partialRef name indent) →
      resolver.Visits t.ops scene.store store →
      (resolver.partialTemplate name store).1 = .ok (some template) → template.Harmless)
    (hfree : scene.context.LambdaFree host scene.host) :
    (∀ text, (t.render host resolver scene).1 = .ok text → Escaped text.toList) ∧
      (∀ s, unescapeHtml (escapeHtml s) = s) ∧ Function.Injective escapeHtml := by
  refine ⟨fun text htext => ?_, unescapeHtml_escapeHtml, escapeHtml_injective⟩
  have hsafe : ∀ op, resolver.Uses t.ops scene.store op → op.Safe := fun op huses =>
    huses.of_found ht.safe fun name indent store template huses hvisits hfound =>
      (hpartials name indent store template huses hvisits hfound).safe
  have haccords := Renderer.accords_safe (r := ⟨t.options, host, resolver⟩) hfree hsafe
  have hagrees := haccords.execute (1 + maxPartialDepth + host.stack) t.ops
    (resolver.all_uses t.ops scene.store) scene.context scene.context
  have hanswer : Matches (Shared fun text => Pieces text.toList)
      (t.render host resolver scene).1 (t.render host resolver scene).1 :=
    (hagrees _ _ _ _ ⟨rfl, .start, resolver.visits_initial t.ops scene.store, rfl, rfl⟩).1
  rw [htext] at hanswer
  cases hanswer with
  | ok h => exact h.2.escaped

/-- Markup and entities in values, with a partial on a line of its own. -/
theorem Template.render_escaped_partial :
    let resolver : Resolver Unit :=
      { partialTemplate := fun _ _ =>
          ((Template.ofSource "\x7b\x7by\x7d\x7d\n" .standard {} .none).map some, ())
        dynamicTemplate := fun _ _ _ => (.error .expansionLimit, ()) }
    let scene : Scene Unit Unit :=
      ⟨.ofValue (.map [("x", .text "<b>"), ("y", .text "&lt;\n'")]), (), ()⟩
    let written := "- &lt;b&gt;\n  &amp;lt;\n  &#39;\n"
    ∃ t, Template.ofSource "- \x7b\x7bx\x7d\x7d\n  {{>p}}\n" .standard {} .none = .ok t ∧
      t.Harmless ∧ scene.context.LambdaFree Host.empty () ∧
      (t.render .empty resolver scene).1 = .ok written ∧ Escaped written.toList := by
  intro resolver scene written
  have hharmless {source : String} {t : Template}
      (ht : ofSource source .standard {} .none = .ok t)
      (hcheck : ∃ tree, Tree.parse source.toList .standard = .ok tree ∧ tree.Harmless) :
      t.Harmless := harmless_of_off rfl ht hcheck
  have hfree : scene.context.LambdaFree Host.empty scene.host :=
    lambdaFree_of_values (by rintro _ _ _ _ (h | h) <;> cases h)
      (fun frame h => by cases List.mem_singleton.1 h; decide) rfl ()
  obtain ⟨t, ht, hrender⟩ : ∃ t,
      ofSource "- \x7b\x7bx\x7d\x7d\n  {{>p}}\n" .standard {} .none = .ok t ∧
        (t.render .empty resolver scene).1 = .ok written :=
    exists_ok_of_check (by decide +kernel)
  have htharmless := hharmless ht (exists_ok_of_check (by decide +kernel))
  have hfound : ∀ name store template,
      (resolver.partialTemplate name store).1 = .ok (some template) → template.Harmless := by
    intro name store template hfound
    cases hsource : ofSource "\x7b\x7by\x7d\x7d\n" .standard {} .none with
    | error e => simp [resolver, hsource, Except.map] at hfound
    | ok found =>
      obtain rfl : found = template := by simpa [resolver, hsource, Except.map] using hfound
      exact hharmless hsource (exists_ok_of_check (by decide +kernel))
  obtain ⟨hescaped, -⟩ := t.render_escaped .empty resolver scene htharmless
    (fun name _ store template _ _ => hfound name store template) hfree
  exact ⟨t, ht, htharmless, hfree, hrender, hescaped _ hrender⟩

end Mustache
