import Mustache.Proofs.Render.Correctness
import Mustache.Proofs.Render.Scopes
import Mustache.Proofs.Template.Inclusion

/-!
# Mustache.Proofs.Render.Nesting

Rendering a template inside one more partial.

Two renderings of one source are taken side by side, the second with one more partial open. Partials
may be compiled into the instructions of the one and be looked up by the other. Still they give the
same text or error (`Expands.alike_nested`), until the second has too many partials open, or a
partial fails that the source includes: where it is compiled in, it fails before anything else does.

A partial that is looked up is a template that is entered, and one that was compiled in is not, so
that the one rendering may run out of room before the other. `Stage.Outlasts` says which does not,
from how deep each may still go and what each was compiled inside of; then only the other has to be
excused.
-/

namespace Mustache

open Node

variable {η σ : Type} {r : Renderer η σ} {i : Interpreter η} {partials : PartialSources}
  {Ready : σ → Prop} {Lost Excused : Error → Prop}

/-- A rendering, which may fail in a way that is lost, and one with one more partial open, which may
fail in a way that is excused. -/
def Pairing.nested (Ready : σ → Prop) (Lost Excused : Error → Prop) : Pairing η σ η σ where
  contexts c c' := c' = { c with partialDepth := c.partialDepth + 1 } ∧
    c'.partialDepth ≤ maxPartialDepth
  values := .same
  related kept store kept' store' := kept = kept' ∧ Ready store ∧ Ready store'
  lost failed _ := ∃ error, failed = some error ∧ Lost error
  excused error := Excused error ∨ ∃ name, error = .partialRecursion name maxPartialDepth
  known _ := True
  push := by
    rintro c _ v _ ⟨rfl, hdepth⟩ rfl
    exact ⟨rfl, hdepth⟩
  deeper := by
    rintro c _ ⟨rfl, -⟩ hdepth
    exact ⟨Nat.lt_of_succ_lt hdepth, rfl, hdepth⟩
  deepest _ _ := .inr fun name => .inr ⟨name, rfl⟩
  lost_of_none := by rintro _ _ ⟨_, ⟨⟩, _⟩

/-! ## The same instructions -/

section Alike

variable {α β : Type} {R : α → β → Prop} {error : Error}

theorem Pairing.alike_throw_left (h : Lost error) (m' : Render η σ β) :
    (Pairing.nested Ready Lost Excused).Alike R (throw error : Render η σ α) m' :=
  fun _ _ _ _ => .inl ⟨error, rfl, h⟩

theorem Pairing.alike_throw_right (h : Excused error) (m : Render η σ α) :
    (Pairing.nested Ready Lost Excused).Alike R m (throw error : Render η σ β) :=
  fun _ _ _ _ => .inr (.inl ⟨error, rfl, .inl h⟩)

end Alike

namespace Renderer.Follows

variable (hr : r.Follows i partials Ready)
include hr

theorem steady : r.resolver.Steady Ready fun _ => True where
  partialTemplate name store store' h h' := by
    rw [(hr.partialTemplate name h).2, (hr.partialTemplate name h').2]
    exact Matches.refl (fun found => Option.rel_refl (fun t => Eq.refl t.ops) found) _
  dynamicTemplate {source} delimiters store store' _ h h' := by
    rw [(hr.dynamicTemplate source delimiters h).2, (hr.dynamicTemplate source delimiters h').2]
    exact Matches.refl (fun t : Template => Eq.refl t.ops) _
  keepsPartial name _ h := (hr.partialTemplate name h).1
  keepsDynamic {source} delimiters _ _ h := (hr.dynamicTemplate source delimiters h).1

theorem alike_nested : r.Alike (.nested Ready Lost Excused) r where
  options := rfl
  same _ := id
  loses := Pairing.loses_of_const (fun _ _ _ h => h) _
  resolve := by
    refine Pairing.Alike.resolve ?_ fun store store' => ⟨?_, ?_⟩
    · rintro c _ ⟨rfl, -⟩
      exact ⟨.of_eq rfl rfl, rfl⟩
    all_goals
      rintro kept _ record key ⟨rfl, hready⟩
      exact ⟨Option.rel_refl (fun _ => rfl) _, rfl, hready⟩
  call lambda text _ := by
    refine .of_scenes ?_
    rintro c c' kept _ store store' - ⟨rfl, hready⟩
    exact .inr (.inr ⟨.ok ⟨rfl, fun _ _ => trivial⟩, rfl, rfl, rfl, hready⟩)
  partialTemplate name := .ofStores fun _ _ _ _ h =>
    ⟨hr.steady.partialTemplate name h.2.1 h.2.2, h.1, hr.steady.keepsPartial name h.2.1,
      hr.steady.keepsPartial name h.2.2⟩
  dynamicTemplate delimiters hknown := .ofStores fun _ _ _ _ h =>
    ⟨hr.steady.dynamicTemplate delimiters hknown h.2.1 h.2.2, h.1,
      hr.steady.keepsDynamic delimiters hknown h.2.1,
      hr.steady.keepsDynamic delimiters hknown h.2.2⟩

theorem loses_nested (n : Nat) (ops : List Op) :
    (Pairing.nested Ready Lost Excused).Loses (r.steps.execute n ops) :=
  have hs : r.Alike (.nested Ready Lost Excused) r := hr.alike_nested
  hs.loses.execute (Pairing.closed_loses _) n ops

/-- The same instructions, with templates entered to two depths. -/
theorem execute_nested {n m : Nat}
    (hpace : Lost .expansionLimit ∧ n ≤ m ∨ Excused .expansionLimit ∧ m ≤ n) (ops : List Op) :
    (Pairing.nested Ready Lost Excused).Alike Eq (r.steps.execute n ops)
      (r.steps.execute m ops) := by
  induction n generalizing m ops with
  | zero =>
    obtain ⟨hlost, -⟩ | ⟨hexcused, hle⟩ := hpace
    · exact Pairing.alike_throw_left hlost _
    · obtain rfl := Nat.le_zero.1 hle
      exact Pairing.alike_throw_right hexcused _
  | succ n ih =>
    cases m with
    | zero =>
      obtain ⟨-, hle⟩ | ⟨hexcused, -⟩ := hpace
      · cases hle
      · exact Pairing.alike_throw_right hexcused _
    | succ m =>
      have hpace' : Lost .expansionLimit ∧ n ≤ m ∨ Excused .expansionLimit ∧ m ≤ n :=
        hpace.imp (.imp_right Nat.le_of_succ_le_succ) (.imp_right Nat.le_of_succ_le_succ)
      exact hr.alike_nested.renderAll (ih hpace') (hr.loses_nested m) ops

end Renderer.Follows

/-! ## Partials that are looked up and partials that were compiled in -/

section Partials

/-- What a reference to a partial writes, inside of that partial. -/
def Renderer.lookedUp (r : Renderer η σ) (enter : List Op → Render η σ String)
    (name indent : String) : Render η σ String := do
  match ← r.partialTemplate name with
  | none => pure ""
  | some template =>
    let text ← enter template.ops
    pure (r.indented indent text)

variable (hr : r.Follows i partials Ready) {name indent : String}
  {enter : List Op → Render η σ String}
include hr

theorem Renderer.Follows.partialTemplate_of_source {source : String} {tree : Tree}
    (hsource : i.source name = .ok (some source))
    (htree : Tree.parse source.toList i.delimiters = .ok tree) (scene : Scene η σ)
    (hready : Ready scene.store) :
    ∃ store, Ready store ∧
      ((∃ t, t.CompiledFrom r i partials tree ∧
        r.partialTemplate name scene = (.ok (some t), { scene with store := store })) ∨
      ∃ error, partials.Blames i.delimiters r.options.room (partialNamesAll tree) error ∧
        r.partialTemplate name scene = (.error error, { scene with store := store })) := by
  obtain ⟨hnext, hanswer⟩ := hr.partialTemplate name hready
  refine ⟨_, hnext, ?_⟩
  simp only [hsource] at hanswer
  simp only [Renderer.partialTemplate, hanswer]
  obtain ⟨ops, dependencies, hops, htemplate⟩ | ⟨error, hblames, htemplate⟩ :=
    ofSource_of_parse r.options partials htree
  · rw [htemplate]
    exact .inl ⟨_, ⟨dependencies, hops⟩, rfl⟩
  · rw [htemplate]
    exact .inr ⟨error, hblames, rfl⟩

theorem Renderer.Follows.render_missing (hsource : i.source name = .ok none)
    (enter : List Op → Render η σ String) (indent : String) (scene : Scene η σ)
    (hready : Ready scene.store) (hdepth : scene.context.partialDepth < maxPartialDepth) :
    ∃ store, Ready store ∧ r.steps.render enter (.partialRef name indent) scene =
      (.ok "", { scene with store := store }) := by
  obtain ⟨hnext, hanswer⟩ := hr.partialTemplate name hready
  rw [hsource] at hanswer
  refine ⟨_, hnext, ?_⟩
  simp only [Steps.render, Renderer.insidePartial, if_pos hdepth, bind_apply,
    Renderer.partialTemplate, Renderer.steps, hanswer]
  rfl

theorem Renderer.Follows.missing_left (hsource : i.source name = .ok none) :
    (Pairing.nested Ready Lost Excused).Alike Eq (r.steps.render enter (.partialRef name indent))
      (pure "") := by
  refine .of_scenes ?_
  rintro c _ kept _ store store' ⟨rfl, hdepth⟩ ⟨rfl, hready, hready'⟩
  obtain ⟨next, hnext, hrender⟩ :=
    hr.render_missing hsource enter indent ⟨c, kept, store⟩ hready hdepth
  rw [hrender]
  exact .inr (.inr ⟨.ok rfl, rfl, rfl, rfl, hnext, hready'⟩)

theorem Renderer.Follows.missing_right (hsource : i.source name = .ok none) :
    (Pairing.nested Ready Lost Excused).Alike Eq (pure "")
      (r.steps.render enter (.partialRef name indent)) := by
  refine .of_scenes ?_
  rintro c _ kept _ store store' ⟨rfl, -⟩ ⟨rfl, hready, hready'⟩
  by_cases hdepth : c.partialDepth + 1 < maxPartialDepth
  · obtain ⟨next, hnext, hrender⟩ := hr.render_missing hsource enter indent
      ⟨{ c with partialDepth := c.partialDepth + 1 }, kept, store'⟩ hready' hdepth
    rw [hrender]
    exact .inr (.inr ⟨.ok rfl, rfl, rfl, rfl, hready, hnext⟩)
  · rw [Steps.render, Renderer.insidePartial, if_neg hdepth]
    exact .inr (.inl ⟨_, rfl, .inr ⟨name, rfl⟩⟩)

section Looked

variable {source : String} {tree : Tree} (hsource : i.source name = .ok (some source))
  (htree : Tree.parse source.toList i.delimiters = .ok tree)
  (hexcused : ∀ {error}, partials.Blames i.delimiters r.options.room (partialNamesAll tree) error →
    Lost error ∧ Excused error) {body : Render η σ String}
include hsource htree hexcused

theorem Renderer.Follows.lookedUp_left {n : Nat}
    (hbody : ∀ t : Template, t.CompiledFrom r i partials tree →
      (Pairing.nested Ready Lost Excused).Alike Eq (r.steps.execute n t.ops) body)
    (hlost : (Pairing.nested Ready Lost Excused).Loses body) :
    (Pairing.nested Ready Lost Excused).Alike Eq (r.lookedUp (r.steps.execute n) name indent)
      (do
        let text ← body
        pure (r.indented indent text)) := by
  have hfound : (Pairing.nested Ready Lost Excused).Alike
      (fun found (_ : Unit) => ∃ t, found = some t ∧ t.CompiledFrom r i partials tree)
      (r.partialTemplate name) (pure ()) := by
    refine .of_scenes ?_
    rintro c c' kept _ store store' - ⟨rfl, hready, hready'⟩
    obtain ⟨next, hnext, ⟨t, ht, hstep⟩ | ⟨error, hblames, hstep⟩⟩ :=
      hr.partialTemplate_of_source hsource htree ⟨c, kept, store⟩ hready
    · rw [hstep]
      exact .inr (.inr ⟨.ok ⟨t, rfl, ht⟩, rfl, rfl, rfl, hnext, hready'⟩)
    · rw [hstep]
      exact .inl ⟨error, rfl, (hexcused hblames).1⟩
  rw [← pure_bind () fun _ => (do
    let text ← body
    pure (r.indented indent text) : Render η σ String)]
  refine hfound.bind ?_ fun _ => (Pairing.closed_loses _).bind hlost fun _ _ => .pure _
  rintro _ _ ⟨t, rfl, ht⟩
  exact (hbody t ht).map fun _ => rfl

theorem Renderer.Follows.lookedUp_right {n : Nat}
    (hbody : ∀ t : Template, t.CompiledFrom r i partials tree →
      (Pairing.nested Ready Lost Excused).Alike Eq body (r.steps.execute n t.ops)) :
    (Pairing.nested Ready Lost Excused).Alike Eq
      (do
        let text ← body
        pure (r.indented indent text))
      (r.lookedUp (r.steps.execute n) name indent) := by
  have hfound : (Pairing.nested Ready Lost Excused).Alike
      (fun (_ : Unit) found => ∃ t, found = some t ∧ t.CompiledFrom r i partials tree)
      (pure ()) (r.partialTemplate name) := by
    refine .of_scenes ?_
    rintro c c' kept _ store store' - ⟨rfl, hready, hready'⟩
    obtain ⟨next, hnext, ⟨t, ht, hstep⟩ | ⟨error, hblames, hstep⟩⟩ :=
      hr.partialTemplate_of_source hsource htree ⟨c', kept, store'⟩ hready'
    · rw [hstep]
      exact .inr (.inr ⟨.ok ⟨t, rfl, ht⟩, rfl, rfl, rfl, hready, hnext⟩)
    · rw [hstep]
      exact .inr (.inl ⟨error, rfl, .inl (hexcused hblames).2⟩)
  rw [← pure_bind () fun _ => (do
    let text ← body
    pure (r.indented indent text) : Render η σ String)]
  refine hfound.bind ?_ ?_
  · rintro _ _ ⟨t, rfl, ht⟩
    exact (hbody t ht).map fun _ => rfl
  · rintro (_ | t)
    · exact fun _ => .pure _
    · exact (Pairing.closed_loses _).bind (hr.loses_nested n t.ops) fun _ _ => .pure _

end Looked

end Partials

/-! ## Which rendering runs out of room -/

def Host.withStack (host : Host η) (room : Nat) : Host η := { host with stack := room }

/-- The stack bounds how deep a template is rendered, and nothing else. -/
theorem Renderer.execute_withStack (options : CompilerOptions) (host : Host η) (room : Nat)
    (resolver : Resolver σ) (limit : Nat) (ops : List Op) (scene : Scene η σ) :
    (Renderer.execute ⟨options, host.withStack room, resolver⟩ limit ops scene).1 =
      (Renderer.execute ⟨options, host, resolver⟩ limit ops scene).1 := by
  let p : Pairing η σ η σ := .sameContexts
    (fun kept store kept' store' => kept = kept' ∧ store = store') (fun _ => False) fun _ => True
  have hstores : p.SameStores := fun ⟨hkept, hstore⟩ => ⟨hstore, fun _ => ⟨hkept, rfl⟩⟩
  have halike : Renderer.Alike p ⟨options, host.withStack room, resolver⟩
      ⟨options, host, resolver⟩ :=
    { options := rfl
      same := fun _ => id
      loses := Pairing.loses_of_const (fun _ _ _ => id) _
      resolve := .resolve (by
          rintro c _ rfl
          exact ⟨.of_eq rfl rfl, rfl⟩)
        fun store store' => ⟨by
          rintro kept _ record key ⟨rfl, hstore⟩
          exact ⟨Option.rel_refl (fun _ => rfl) _, rfl, hstore⟩, by
          rintro kept _ record key ⟨rfl, hstore⟩
          exact ⟨Option.rel_refl (fun _ => rfl) _, rfl, hstore⟩⟩
      call := fun lambda text _ => .of_scenes (by
        rintro c _ kept _ store _ rfl ⟨rfl, rfl⟩
        exact .inr (.inr ⟨.ok ⟨rfl, fun _ _ => trivial⟩, rfl, rfl, rfl, rfl⟩))
      partialTemplate := fun _ => .partialTemplate hstores rfl
      dynamicTemplate := fun _ _ => .dynamicTemplate hstores rfl }
  obtain ⟨⟨⟩⟩ | ⟨_, _, ⟨⟩⟩ | ⟨hmatches, -⟩ := halike.execute limit ops scene scene rfl ⟨rfl, rfl⟩
  exact hmatches.eq

/-- A rendering of instructions: how deep it may still enter templates, and for how many partials
more, inside of which, its instructions were compiled. -/
structure Stage where
  limit : Nat
  left : Nat
  enclosing : List String

namespace Stage

/-- The first may enter templates as deep as the second: it may go deeper, or it looks no partial up
that the second does not look up. -/
def Outlasts (s t : Stage) : Prop :=
  t.limit < s.limit ∨ t.limit ≤ s.limit ∧ t.left ≤ s.left ∧ s.enclosing ⊆ t.enclosing

section Outlasts

variable {n m left left' room : Nat} {enclosing enclosing' : List String} {name : String}

theorem Outlasts.le {s t : Stage} (h : s.Outlasts t) : t.limit ≤ s.limit :=
  h.elim Nat.le_of_lt And.left

theorem Outlasts.inside (h : Outlasts ⟨m, left' + 1, enclosing'⟩ ⟨n, left + 1, enclosing⟩) :
    Outlasts ⟨m, left', name :: enclosing'⟩ ⟨n, left, name :: enclosing⟩ :=
  h.imp_right fun ⟨hle, hleft, hsubset⟩ =>
    ⟨hle, Nat.le_of_succ_le_succ hleft, List.cons_subset_cons name hsubset⟩

theorem Outlasts.lookUp (h : Outlasts ⟨m, left', enclosing'⟩ ⟨n, left + 1, enclosing⟩)
    (hstays : left' = 0 ∨ name ∈ enclosing') (hopens : name ∉ enclosing) (hroom : left ≤ room) :
    ∃ m', m = m' + 1 ∧ Outlasts ⟨m', room, []⟩ ⟨n, left, name :: enclosing⟩ := by
  obtain hlt | ⟨-, hleft, hsubset⟩ := h
  · have hlt : n < m := hlt
    exact ⟨m - 1, by omega, .inr ⟨Nat.le_sub_one_of_lt hlt, hroom, List.nil_subset _⟩⟩
  · obtain rfl | hmem := hstays
    · cases hleft
    · exact absurd (hsubset hmem) hopens

theorem Outlasts.ofLookUp (h : Outlasts ⟨m, left', enclosing'⟩ ⟨n + 1, left, enclosing⟩) (s : Stage)
    (t : Stage) (hs : s.limit = m) (ht : t.limit = n) : s.Outlasts t := by
  have hle : n + 1 ≤ m := h.le
  exact .inl (by omega)

end Outlasts

/-- The one that may run out of room before the other may fail so. -/
def Paced (Lost Excused : Error → Prop) (s t : Stage) : Prop :=
  Lost .expansionLimit ∧ t.Outlasts s ∨ Excused .expansionLimit ∧ s.Outlasts t

namespace Paced

variable {n m left left' room : Nat} {enclosing enclosing' : List String} {name : String}

theorem symm {s t : Stage} (h : Paced Lost Excused s t) : Paced Excused Lost t s :=
  Or.symm h

theorem limits {s t : Stage} (h : Paced Lost Excused s t) :
    Lost .expansionLimit ∧ s.limit ≤ t.limit ∨ Excused .expansionLimit ∧ t.limit ≤ s.limit :=
  h.imp (.imp_right Outlasts.le) (.imp_right Outlasts.le)

theorem inside (h : Paced Lost Excused ⟨n, left + 1, enclosing⟩ ⟨m, left' + 1, enclosing'⟩) :
    Paced Lost Excused ⟨n, left, name :: enclosing⟩ ⟨m, left', name :: enclosing'⟩ :=
  h.imp (.imp_right Outlasts.inside) (.imp_right Outlasts.inside)

/-- A partial that was compiled in for the first and that the second looks up, if it may enter one
more template. -/
theorem lookUp (h : Paced Lost Excused ⟨n, left + 1, enclosing⟩ ⟨m, left', enclosing'⟩)
    (hstays : left' = 0 ∨ name ∈ enclosing') (hopens : name ∉ enclosing) (hroom : left ≤ room) :
    m = 0 ∧ Excused .expansionLimit ∨
      ∃ m', m = m' + 1 ∧ Paced Lost Excused ⟨n, left, name :: enclosing⟩ ⟨m', room, []⟩ := by
  obtain ⟨hlost, houtlasts⟩ | ⟨hexcused, houtlasts⟩ := h
  · obtain ⟨m', hm, hlasts⟩ := houtlasts.lookUp hstays hopens hroom
    exact .inr ⟨m', hm, .inl ⟨hlost, hlasts⟩⟩
  · cases m with
    | zero => exact .inl ⟨rfl, hexcused⟩
    | succ m => exact .inr ⟨m, rfl, .inr ⟨hexcused, houtlasts.ofLookUp _ _ rfl rfl⟩⟩

end Paced

end Stage

/-! ## Instructions from one source -/

section Expands

theorem Steps.renderAll_append_text {s : Steps η σ} {enter : List Op → Render η σ String}
    (text : String) (ops : List Op) :
    s.renderAll enter (Op.append [.text text] ops) =
      (do
        let first ← pure text
        let rest ← s.renderAll enter ops
        pure (first ++ rest)) := by
  cases ops with
  | nil => simp only [Op.append, Steps.renderAll, Steps.render, pure_bind]
  | cons op ops =>
    cases op <;>
      simp only [Op.append, Steps.renderAll, Steps.render, pure_bind, bind_assoc,
        String.append_assoc]

theorem Render.empty_append (m : Render η σ String) :
    (do
      let first ← pure ""
      let rest ← m
      pure (first ++ rest)) = m := by
  simp only [pure_bind, String.empty_append, bind_pure]

section Append

variable {p : Pairing η σ η σ} {s s' : Steps η σ} {enter enter' : List Op → Render η σ String}

theorem Pairing.Alike.cons_empty {op : Op} {ops : List Op} {rest : Render η σ String}
    (hop : p.Alike Eq (s.render enter op) (Pure.pure ""))
    (hops : p.Alike Eq (s.renderAll enter ops) rest) (hlost : p.Loses rest) :
    p.Alike Eq (s.renderAll enter (op :: ops)) rest := by
  rw [Steps.renderAll, ← Render.empty_append rest]
  exact hop.append hops hlost

theorem Pairing.Alike.empty_cons {op : Op} {ops : List Op} {rest : Render η σ String}
    (hop : p.Alike Eq (Pure.pure "") (s'.render enter' op))
    (hops : p.Alike Eq rest (s'.renderAll enter' ops)) (hlost : p.Loses (s'.renderAll enter' ops)) :
    p.Alike Eq rest (s'.renderAll enter' (op :: ops)) := by
  rw [Steps.renderAll, ← Render.empty_append rest]
  exact hop.append hops hlost

theorem Steps.Alike.ofBlock (hs : s.Alike p s')
    (henter : ∀ ops, p.Alike Eq (enter ops) (enter' ops))
    (hlost : ∀ ops, p.Loses (enter' ops)) {body body' : List Op}
    (hbody : p.Alike Eq (s.renderAll enter body) (s'.renderAll enter' body')) (path : String)
    (inverted : Bool) (raw : String) (delimiters : Delimiters) :
    p.Alike Eq (s.render enter (.ofBlock path inverted body raw delimiters))
      (s'.render enter' (.ofBlock path inverted body' raw delimiters)) := by
  cases inverted with
  | true => exact hs.inverted hlost hbody _
  | false => exact hs.block henter hlost hbody _ _ _

end Append

variable (hr : r.Follows i partials Ready) (hsources : partials.source = i.source)
  {tags : List String}
  (hblamed : ∀ {levels error}, r.options.includePartialCode = true →
    partials.Blames i.delimiters levels tags error → Lost error ∧ Excused error)
include hr hsources hblamed

/-- Instructions that nodes were compiled to, beside others that they were compiled to. -/
theorem Expands.alike_nested (total : Nat) :
    ∀ {n m}, n + m = total → ∀ {left enclosing nodes known ops known₁},
      Expands partials i.delimiters left enclosing nodes known ops known₁ →
      (∀ name ∈ partialNamesAll nodes, ∃ levels, Includes partials i.delimiters levels tags name) →
      left ≤ r.options.room → ∀ {left' enclosing' known' ops' known₁'},
        Expands partials i.delimiters left' enclosing' nodes known' ops' known₁' →
        left' ≤ r.options.room →
        Stage.Paced Lost Excused ⟨n, left, enclosing⟩ ⟨m, left', enclosing'⟩ →
        (Pairing.nested Ready Lost Excused).Alike Eq (r.steps.renderAll (r.steps.execute n) ops)
          (r.steps.renderAll (r.steps.execute m) ops') := by
  -- The outer induction goes into the templates that are entered, the inner one into the sections
  -- and partials that are part of the first instructions.
  induction total using Nat.strongRecOn with
  | ind total ihtotal =>
    intro n m htotal left enclosing nodes known ops known₁ h
    have hs : r.Alike (.nested Ready Lost Excused) r := hr.alike_nested
    have hlost : ∀ ops, (Pairing.nested Ready Lost Excused).Loses (r.steps.execute m ops) :=
      hr.loses_nested m
    have hloses := hs.loses.renderAll (Pairing.closed_loses _) hlost
    have hinside : ∀ {name source tree},
        (∃ levels, Includes partials i.delimiters levels tags name) →
        partials.source name = .ok (some source) →
        Tree.parse source.toList i.delimiters = .ok tree → ∀ other ∈ partialNamesAll tree,
          ∃ levels, Includes partials i.delimiters levels tags other :=
      fun ⟨levels, hname⟩ hsource htree other hother =>
        ⟨levels + 1, hname.through hsource htree (.tag hother)⟩
    have hexcused : ∀ {name source tree},
        (∃ levels, Includes partials i.delimiters levels tags name) →
        partials.source name = .ok (some source) →
        Tree.parse source.toList i.delimiters = .ok tree → ∀ {error},
          partials.Blames i.delimiters r.options.room (partialNamesAll tree) error →
          Lost error ∧ Excused error := by
      rintro name source tree ⟨levels, hname⟩ hsource htree error hblames
      have hinline := hblames.inlines
      obtain ⟨other, hother, hfails⟩ := hblames
      exact hblamed hinline ⟨other, hname.through hsource htree hother, hfails⟩
    induction h with
    | nil =>
      intro _ _ _ _ _ _ _ h' _ _
      cases h' with
      | nil =>
        rw [Steps.renderAll, Steps.renderAll]
        exact .pure rfl
    | text _ ih =>
      intro htags hleft _ _ _ _ _ h' hleft' hpace
      cases h' with
      | text h' =>
        rw [Steps.renderAll_append_text, Steps.renderAll_append_text]
        exact .append (.pure rfl) (ih htags hleft h' hleft' hpace) (hloses _)
    | comment _ ih =>
      intro htags hleft _ _ _ _ _ h' hleft' hpace
      cases h' with
      | comment h' => exact ih htags hleft h' hleft' hpace
    | interpolation _ ih =>
      intro htags hleft _ _ _ _ _ h' hleft' hpace
      have henter := hr.execute_nested hpace.limits
      cases h' with
      | interpolation h' =>
        exact hs.cons hlost (hs.interpolation henter hlost _ _) (ih htags hleft h' hleft' hpace)
    | block _ _ ihc ih =>
      intro htags hleft _ _ _ _ _ h' hleft' hpace
      have henter := hr.execute_nested hpace.limits
      obtain ⟨hchildren, hrest⟩ := List.forall_mem_append.1 htags
      cases h' with
      | block hc' h' =>
        exact hs.cons hlost
          (hs.ofBlock henter hlost (ihc hchildren hleft hc' hleft' hpace) _ _ _ _)
          (ih hrest hleft h' hleft' hpace)
    | @reference _ _ name _ _ nodes _ _ _ hstays _ ih =>
      intro htags hleft _ _ _ _ _ h' hleft' hpace
      have henter := hr.execute_nested hpace.limits
      obtain ⟨hname, hrest⟩ := List.forall_mem_cons.1 htags
      cases h' with
      | reference _ h' =>
        exact hs.cons hlost (hs.partialRef henter hlost _ _) (ih hrest hleft h' hleft' hpace)
      | missing _ _ hsource h' =>
        exact .cons_empty (hr.missing_left (hsources ▸ hsource)) (ih hrest hleft h' hleft' hpace)
          (hloses _)
      | inlined hopens _ hsource htree hbody' h' =>
        refine hs.cons hlost ?_ (ih hrest hleft h' hleft' hpace)
        rw [Steps.render, Steps.render]
        refine .insidePartial name (hr.lookedUp_left (hsources ▸ hsource) htree
          (hexcused hname hsource htree) ?_ (hloses _))
        rintro t ⟨dependencies, hops⟩
        have hroom := Nat.le_of_succ_le hleft'
        obtain ⟨rfl, hlimit⟩ | ⟨n, rfl, hpace'⟩ := hpace.symm.lookUp hstays hopens hroom
        · exact Pairing.alike_throw_left hlimit _
        · exact ihtotal (n + m) (by omega) rfl hops (hinside hname hsource htree) (Nat.le_refl _)
            hbody' hroom hpace'.symm
    | @missing _ _ name _ _ nodes _ _ _ _ _ _ hsource _ ih =>
      intro htags hleft _ _ _ _ _ h' hleft' hpace
      obtain ⟨-, hrest⟩ := List.forall_mem_cons.1 htags
      cases h' with
      | reference _ h' =>
        exact .empty_cons (hr.missing_right (hsources ▸ hsource)) (ih hrest hleft h' hleft' hpace)
          (hloses _)
      | missing _ _ _ h' => exact ih hrest hleft h' hleft' hpace
      | inlined _ _ hsource' _ _ _ => cases hsource.symm.trans hsource'
    | @inlined _ _ name _ _ nodes _ _ _ _ _ _ _ _ hopens _ hsource htree hbody _ ihb ih =>
      intro htags hleft _ _ _ _ _ h' hleft' hpace
      obtain ⟨hname, hrest⟩ := List.forall_mem_cons.1 htags
      have hroom := Nat.le_of_succ_le hleft
      cases h' with
      | reference hstays h' =>
        refine hs.cons hlost ?_ (ih hrest hleft h' hleft' hpace)
        rw [Steps.render, Steps.render]
        refine .insidePartial name (hr.lookedUp_right (hsources ▸ hsource) htree
          (hexcused hname hsource htree) ?_)
        rintro t ⟨dependencies, hops⟩
        obtain ⟨rfl, hlimit⟩ | ⟨m, rfl, hpace'⟩ := hpace.lookUp hstays hopens hroom
        · exact Pairing.alike_throw_right hlimit _
        · exact ihtotal (n + m) (by omega) rfl hbody (hinside hname hsource htree) hroom hops
            (Nat.le_refl _) hpace'
      | missing _ _ hsource' _ => cases hsource.symm.trans hsource'
      | inlined _ _ hsource' htree' hbody' h' =>
        cases hsource.symm.trans hsource'
        cases htree.symm.trans htree'
        exact hs.cons hlost
          (hs.inlined (ihb (hinside hname hsource htree) hroom hbody' (Nat.le_of_succ_le hleft')
            hpace.inside) _ _)
          (ih hrest hleft h' hleft' hpace)

end Expands

/-! ## A tag by itself -/

section Tag

theorem Renderer.indented_empty (r : Renderer η σ) (text : String) : r.indented "" text = text := by
  rw [Renderer.indented]
  split
  · exact String.empty_append
  · exact (congrArg String.ofList (Text.indentLines_nil text.toList)).trans String.ofList_toList

theorem Steps.renderAll_singleton (s : Steps η σ) (enter : List Op → Render η σ String) (op : Op) :
    s.renderAll enter [op] = s.render enter op := by
  simp only [Steps.renderAll, pure_bind, String.append_empty, bind_pure]

section Found

variable (hr : r.Follows i partials Ready) (hsources : partials.source = i.source)
  {source name : String} {tree : Tree} (hsource : i.source name = .ok (some source))
  (htree : Tree.parse source.toList i.delimiters = .ok tree)
  (hblamed : ∀ {levels error}, r.options.includePartialCode = true →
    partials.Blames i.delimiters levels (partialNamesAll tree) error → Lost error ∧ Excused error)
  {span : Span} {known known₁ known' known₁' : List Dependency} {ops ops' : List Op}
  (hops : Expands partials i.delimiters r.options.room [] tree known ops known₁)
  (htag : Expands partials i.delimiters r.options.room [] [.partialTag name "" span] known' ops'
    known₁')
include hr hsources hsource htree hblamed hops htag

/-- A template beside what a tag for it writes inside of the partial, whether that was compiled in
or is looked up. The tag does not run out of room before the template if it may enter one more. -/
theorem Expands.alike_tag {n m : Nat}
    (hpace : Lost .expansionLimit ∧ n < m ∨ Excused .expansionLimit ∧ m ≤ n) :
    ∃ inside, r.execute (m + 1) ops' = Renderer.insidePartial name inside ∧
      (Pairing.nested Ready Lost Excused).Alike Eq (r.execute (n + 1) ops) inside := by
  have hnested {m : Nat} {left : Nat} {enclosing known ops' known₁}
      (h : Expands partials i.delimiters left enclosing tree known ops' known₁)
      (hleft : left ≤ r.options.room)
      (hpace : Stage.Paced Lost Excused ⟨n, r.options.room, []⟩ ⟨m, left, enclosing⟩) :
      (Pairing.nested Ready Lost Excused).Alike Eq (r.steps.renderAll (r.steps.execute n) ops)
        (r.steps.renderAll (r.steps.execute m) ops') :=
    hops.alike_nested hr hsources hblamed _ rfl (fun _ hname => ⟨1, .tag hname⟩) (Nat.le_refl _) h
      hleft hpace
  simp only [← r.steps_execute, Steps.execute]
  generalize hroom : r.options.room = room at htag
  cases htag with
  | reference _ htail =>
    cases htail with
    | nil =>
      have hbody (t : Template) (ht : t.CompiledFrom r i partials tree) :
          (Pairing.nested Ready Lost Excused).Alike Eq (r.steps.renderAll (r.steps.execute n) ops)
            (r.steps.execute m t.ops) := by
        obtain ⟨dependencies, ht⟩ := ht
        cases m with
        | zero =>
          obtain ⟨-, hlt⟩ | ⟨hexcused, -⟩ := hpace
          · cases hlt
          · exact Pairing.alike_throw_right hexcused _
        | succ m =>
          refine hnested ht (Nat.le_refl _) (hpace.imp (.imp_right fun hlt => ?_)
            (.imp_right fun hle => .inl hle))
          exact .inr ⟨Nat.le_of_lt_succ hlt, Nat.le_refl _, List.Subset.refl _⟩
      have hlooked : (Pairing.nested Ready Lost Excused).Alike Eq _
          (r.lookedUp (r.steps.execute m) name "") :=
        hr.lookedUp_right hsource htree (fun hblames => hblamed hblames.inlines hblames) hbody
      simp only [Renderer.indented_empty, bind_pure] at hlooked
      refine ⟨_, ?_, hlooked⟩
      rw [Steps.renderAll_singleton, Steps.render]
      rfl
  | missing _ _ hmissing _ => cases hsource.symm.trans (hsources ▸ hmissing)
  | @inlined left _ _ _ _ _ _ _ _ _ _ _ _ _ _ _ hsource' htree' hbody htail =>
    cases htail with
    | nil =>
      cases hsource.symm.trans (hsources ▸ hsource')
      cases htree.symm.trans htree'
      have hleft : left ≤ r.options.room := hroom ▸ Nat.le_succ left
      refine ⟨_, ?_, hnested (m := m) hbody hleft (hpace.imp (.imp_right .inl)
        (.imp_right fun hle => .inr ⟨hle, hleft, List.nil_subset _⟩))⟩
      rw [Steps.renderAll_singleton, Steps.render]
      simp only [Renderer.indented_empty, bind_pure]

/-- A tag writes what the template writes, unless too many partials are open, or one of the two
fails in a way that is lost or excused. -/
theorem Expands.tag_eq_or {n m : Nat}
    (hpace : Lost .expansionLimit ∧ n < m ∨ Excused .expansionLimit ∧ m ≤ n) {c : Context}
    (kept : η) {store store' : σ} (hready : Ready store) (hready' : Ready store')
    (hdepth : c.partialDepth < maxPartialDepth) :
    let direct := (r.execute (n + 1) ops ⟨c, kept, store⟩).1
    let tagged := (r.execute (m + 1) ops' ⟨c, kept, store'⟩).1
    tagged = direct ∨ (∃ other, tagged = .error (.partialRecursion other maxPartialDepth)) ∨
      ∃ error, direct = .error error ∧ Lost error ∨ tagged = .error error ∧ Excused error := by
  obtain ⟨inside, hinside, halike⟩ :=
    hops.alike_tag hr hsources hsource htree hblamed htag hpace
  simp only [hinside, Renderer.insidePartial, if_pos hdepth]
  obtain ⟨error, hfails, hlost⟩ | ⟨error, hfails, hexcused | ⟨other, rfl⟩⟩ | ⟨hmatches, -⟩ :=
    halike ⟨c, kept, store⟩ ⟨{ c with partialDepth := c.partialDepth + 1 }, kept, store'⟩
      ⟨rfl, hdepth⟩ ⟨rfl, hready, hready'⟩
  · exact .inr (.inr ⟨error, .inl ⟨eq_of_failure hfails, hlost⟩⟩)
  · exact .inr (.inr ⟨error, .inr ⟨hfails, hexcused⟩⟩)
  · exact .inr (.inl ⟨other, hfails⟩)
  · exact .inl hmatches.eq.symm

end Found

theorem Expands.tag_error (hr : r.Follows i partials Ready) (hsources : partials.source = i.source)
    {source name indent : String} {error : Error} (hsource : i.source name = .ok (some source))
    (hparse : Tree.parse source.toList i.delimiters = .error error)
    {left : Nat} {enclosing : List String} {span : Span} {known known' : List Dependency}
    {ops : List Op}
    (htag : Expands partials i.delimiters left enclosing [.partialTag name indent span] known ops
      known') (n : Nat) {scene : Scene η σ} (hready : Ready scene.store)
    (hdepth : scene.context.partialDepth < maxPartialDepth) :
    (r.execute (n + 1) ops scene).1 = .error error := by
  cases htag with
  | reference _ htail =>
    cases htail with
    | nil =>
      obtain ⟨-, hanswer⟩ := hr.partialTemplate name hready
      simp only [hsource, Template.ofSource, hparse] at hanswer
      simp only [← r.steps_execute, Steps.execute, Steps.renderAll_singleton, Steps.render,
        Renderer.insidePartial, if_pos hdepth, bind_apply, Renderer.partialTemplate, Renderer.steps,
        hanswer, Except.map]
  | missing _ _ hmissing _ => cases hsource.symm.trans (hsources ▸ hmissing)
  | inlined _ _ hsource' htree _ _ =>
    cases hsource.symm.trans (hsources ▸ hsource')
    cases hparse.symm.trans htree

end Tag

end Mustache
