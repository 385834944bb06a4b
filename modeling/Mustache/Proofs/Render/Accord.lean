import Mustache.Proofs.Render.Lookup
import Mustache.Proofs.Render.Termination
import Mustache.Proofs.Template.Depth

/-!
# Mustache.Proofs.Render.Accord

Renderings in two scenes that no instruction on the way tells apart.

In a `Pairing` the scenes are alike for all instructions. Here there may be instructions to which
they are not, as long as a rendering does not come to them: `Resolver.Uses` are the instructions
that it can come to, in whichever partials they are. `Renderer.Accords` says what has to hold of
these; then a rendering gives the same answer in both scenes, and a text of which `T` is true
(`Renderer.Accords.execute`). It holds where contexts in which these instructions find the same are
kept beside each other (`Renderer.accords_beside`). With one scene, taken twice, it is a fact about
single renderings.
-/

namespace Mustache

variable {η σ α β γ δ : Type}

/-! ## What a rendering can come to -/

/-- Instructions that rendering `start` can come to, and stores that it can be in. Any partial that
one of them refers to may be looked up, in any of the stores. -/
inductive Resolver.Leads (resolver : Resolver σ) (start : List Op) (initial : σ) :
    List Op → σ → Prop where
  | here : Leads resolver start initial start initial
  | look {ops store names name indent} : Leads resolver start initial ops store →
      Op.Inside ops names (.partialRef name indent) →
      Leads resolver start initial ops (resolver.partialTemplate name store).2
  | enter {ops store names name indent template} : Leads resolver start initial ops store →
      Op.Inside ops names (.partialRef name indent) →
      (resolver.partialTemplate name store).1 = .ok (some template) →
      Leads resolver start initial template.ops (resolver.partialTemplate name store).2
  | back {ops store ops' store'} : Leads resolver start initial ops store →
      Leads resolver start initial ops' store' → Leads resolver start initial ops store'

def Resolver.Uses (resolver : Resolver σ) (start : List Op) (initial : σ) (op : Op) : Prop :=
  ∃ ops store names, resolver.Leads start initial ops store ∧ Op.Inside ops names op

def Resolver.Visits (resolver : Resolver σ) (start : List Op) (initial store : σ) : Prop :=
  ∃ ops, resolver.Leads start initial ops store

section Leads

variable {resolver : Resolver σ} {start : List Op} {initial store : σ} {name indent : String}

theorem Resolver.visits_initial (resolver : Resolver σ) (start : List Op) (initial : σ) :
    resolver.Visits start initial initial := ⟨start, .here⟩

theorem Resolver.all_uses (resolver : Resolver σ) (start : List Op) (initial : σ) :
    Op.All (resolver.Uses start initial) start :=
  fun names _ hin => ⟨start, initial, names, .here, hin⟩

theorem Resolver.Uses.visits (h : resolver.Uses start initial (.partialRef name indent))
    (hstore : resolver.Visits start initial store) :
    resolver.Visits start initial (resolver.partialTemplate name store).2 := by
  obtain ⟨ops, _, names, hops, hin⟩ := h
  obtain ⟨_, hstore⟩ := hstore
  exact ⟨ops, .look (.back hops hstore) hin⟩

theorem Resolver.Uses.template (h : resolver.Uses start initial (.partialRef name indent))
    (hstore : resolver.Visits start initial store) {template : Template}
    (hfound : (resolver.partialTemplate name store).1 = .ok (some template)) :
    Op.All (resolver.Uses start initial) template.ops := by
  obtain ⟨ops, _, names, hops, hin⟩ := h
  obtain ⟨_, hstore⟩ := hstore
  exact fun names' _ hin' => ⟨template.ops, _, names', .enter (.back hops hstore) hin hfound, hin'⟩

theorem Resolver.Uses.of_found {P : Op → Prop} {op : Op} (h : resolver.Uses start initial op)
    (hstart : Op.All P start)
    (hfound : ∀ name indent store template, resolver.Uses start initial (.partialRef name indent) →
      resolver.Visits start initial store →
      (resolver.partialTemplate name store).1 = .ok (some template) → Op.All P template.ops) :
    P op := by
  obtain ⟨ops, store, names, hleads, hin⟩ := h
  suffices hops : Op.All P ops from hops names op hin
  clear hin
  induction hleads with
  | here => exact hstart
  | look _ _ ih => exact ih
  | enter hleads hin hanswer _ =>
    exact hfound _ _ _ _ ⟨_, _, _, hleads, hin⟩ ⟨_, hleads⟩ hanswer
  | back _ _ ih _ => exact ih

end Leads

/-! ## Steps that agree -/

/-- What is known of two scenes, by their contexts, hosts and stores. -/
abbrev Meeting (η σ : Type) := Context → Context → η → σ → η → σ → Prop

/-- From contexts that meet, the steps give related answers or the same error, leave the contexts as
they are, and let them meet again. -/
def Render.Agrees (J : Meeting η σ) (R : α → β → Prop) (c c' : Context) (m : Render η σ α)
    (m' : Render η σ β) : Prop :=
  ∀ kept store kept' store', J c c' kept store kept' store' →
    let result := m ⟨c, kept, store⟩
    let result' := m' ⟨c', kept', store'⟩
    Matches R result.1 result'.1 ∧ result.2.context = c ∧ result'.2.context = c' ∧
      J c c' result.2.host result.2.store result'.2.host result'.2.store

/-- The same, and one of which `T` is true. -/
def Shared (T : α → Prop) (a b : α) : Prop := a = b ∧ T a

theorem Matches.and_ok {R : α → β → Prop} {Q : α → Prop} {x : Except Error α} {y : Except Error β}
    (h : Matches R x y) (hQ : ∀ a, x = .ok a → Q a) : Matches (fun a b => R a b ∧ Q a) x y := by
  cases h with
  | error e => exact .error e
  | ok hab => exact .ok ⟨hab, hQ _ rfl⟩

theorem Matches.eq_of_shared {T : α → Prop} {x y : Except Error α} (h : Matches (Shared T) x y) :
    x = y := by
  cases h with
  | error e => rfl
  | ok hab => rw [hab.1]

def Opens (J : Meeting η σ) (c c' : Context) (frame : Value) : Prop :=
  ∀ kept store kept' store', J c c' kept store kept' store' →
    J (c.push frame) (c'.push frame) kept store kept' store'

/-- Contexts that meet still do so after they are restored from inside of a frame or a partial. -/
structure Meeting.Nests (J : Meeting η σ) : Prop where
  pop {c c' frame kept store kept' store' next store₁ next' store₁'} :
    J c c' kept store kept' store' →
    J (c.push frame) (c'.push frame) next store₁ next' store₁' → J c c' next store₁ next' store₁'
  depth {c c' kept store kept' store'} : J c c' kept store kept' store' →
    c.partialDepth = c'.partialDepth
  enter {c c' kept store kept' store'} (depth : Nat) : J c c' kept store kept' store' →
    J { c with partialDepth := depth } { c' with partialDepth := depth } kept store kept' store'

namespace Render.Agrees

variable {J : Meeting η σ} {R : α → β → Prop} {c c' : Context}

theorem pure {a : α} {b : β} (h : R a b) :
    Render.Agrees J R c c' (Pure.pure a : Render η σ α) (Pure.pure b) :=
  fun _ _ _ _ hJ => ⟨.ok h, rfl, rfl, hJ⟩

theorem throw (e : Error) : Render.Agrees J R c c' (MonadExcept.throw e : Render η σ α)
    (MonadExcept.throw e) :=
  fun _ _ _ _ hJ => ⟨.error e, rfl, rfl, hJ⟩

theorem bind {S : γ → δ → Prop} {m : Render η σ α} {m' : Render η σ β} {f : α → Render η σ γ}
    {f' : β → Render η σ δ} (h : Render.Agrees J R c c' m m')
    (hf : ∀ {a b}, R a b → Render.Agrees J S c c' (f a) (f' b)) :
    Render.Agrees J S c c' (m >>= f) (m' >>= f') := by
  intro kept store kept' store' hJ
  obtain ⟨hanswer, hcontext, hcontext', hafter⟩ := h _ _ _ _ hJ
  rw [bind_apply, bind_apply]
  rcases hresult : m ⟨c, kept, store⟩ with ⟨answer, d, next, store₁⟩
  rcases hresult' : m' ⟨c', kept', store'⟩ with ⟨answer', d', next', store₁'⟩
  rw [hresult, hresult'] at hanswer hafter
  rw [hresult] at hcontext
  rw [hresult'] at hcontext'
  obtain rfl : d = c := hcontext
  obtain rfl : d' = c' := hcontext'
  cases hanswer with
  | error e => exact ⟨.error e, rfl, rfl, hafter⟩
  | ok hab => exact hf hab _ _ _ _ hafter

section Nests

variable (hJ : J.Nests) {S : String → String → Prop} {m m' : Render η σ String}
include hJ

theorem withFrame {frame : Value} (hframe : Opens J c c' frame)
    (h : Render.Agrees J S (c.push frame) (c'.push frame) m m') :
    Render.Agrees J S c c' (Renderer.withFrame frame m) (Renderer.withFrame frame m') := by
  intro kept store kept' store' hmeet
  obtain ⟨hanswer, hcontext, hcontext', hafter⟩ :=
    h _ _ _ _ (hframe _ _ _ _ hmeet)
  exact ⟨hanswer, congrArg Context.pop hcontext, congrArg Context.pop hcontext',
    hJ.pop hmeet hafter⟩

theorem insidePartial (name : String) (h : ∀ depth,
      Render.Agrees J S { c with partialDepth := depth } { c' with partialDepth := depth } m m') :
    Render.Agrees J S c c' (Renderer.insidePartial name m) (Renderer.insidePartial name m') := by
  intro kept store kept' store' hmeet
  have hdepth := hJ.depth hmeet
  have hback : { c' with partialDepth := c.partialDepth } = c' := by rw [hdepth]
  let shallower (d : Context) : Context := { d with partialDepth := d.partialDepth - 1 }
  simp only [Renderer.insidePartial, ← hdepth]
  split
  · obtain ⟨hanswer, hcontext, hcontext', hafter⟩ :=
      h (c.partialDepth + 1) _ _ _ _ (hJ.enter (c.partialDepth + 1) hmeet)
    refine ⟨hanswer, congrArg shallower hcontext, (congrArg shallower hcontext').trans hback, ?_⟩
    have hrestored := hJ.enter c.partialDepth hafter
    rwa [hback] at hrestored
  · exact ⟨.error _, rfl, rfl, hmeet⟩

end Nests

end Render.Agrees

/-! ## Renderings that agree -/

/-- The texts of these instructions, and what is made of them, are `T`. -/
structure Renderer.Writes (r : Renderer η σ) (Uses : Op → Prop) (T : String → Prop) : Prop where
  empty : T ""
  append {text rest : String} : T text → T rest → T (text ++ rest)
  text {s : String} : Uses (.text s) → T s
  plain {path : KeyPath} (value : Value) : Uses (.interpolation path false) → T value.interpolated
  escaped (value : Value) : T (String.ofList (Text.escapeHtml value.interpolated.toList))
  indented {name indent text : String} :
    (Uses (.partialRef name indent) ∨ ∃ body, Uses (.inlined name indent body)) → T text →
    T (r.indented indent text)

theorem Renderer.writes_any (r : Renderer η σ) (Uses : Op → Prop) :
    r.Writes Uses fun _ => True where
  empty := trivial
  append _ _ := trivial
  text _ := trivial
  plain _ _ := trivial
  escaped _ := trivial
  indented _ _ := trivial

/-- In contexts that meet, these instructions do not tell the scenes apart. No lambda is found, and
the frames of what is found can be opened in both. -/
structure Renderer.Accords (r : Renderer η σ) (Uses : Op → Prop) (J : Meeting η σ)
    (T : String → Prop) : Prop where
  nests : J.Nests
  writes : r.Writes Uses T
  resolve {op : Op} {path : KeyPath} {c c' : Context} : Uses op → op.path? = some path →
    Render.Agrees J
      (Shared fun v => (∀ lambda, v ≠ .lambda lambda) ∧ ∀ frame ∈ v.frames, Opens J c c' frame)
      c c' (r.resolve path) (r.resolve path)
  partialTemplate {name indent : String} {c c' : Context} : Uses (.partialRef name indent) →
    Render.Agrees J
      (fun found found' => Option.Rel (fun t t' => t.ops = t'.ops) found found' ∧
        ∀ t, found = some t → Op.All Uses t.ops)
      c c' (r.partialTemplate name) (r.partialTemplate name)

section Accords

variable {r : Renderer η σ} {Uses : Op → Prop} {J : Meeting η σ} {T : String → Prop}
  {c c' : Context}

theorem Renderer.Writes.concat (hT : r.Writes Uses T) {m m' n n' : Render η σ String}
    (h : Render.Agrees J (Shared T) c c' m n) (h' : Render.Agrees J (Shared T) c c' m' n') :
    Render.Agrees J (Shared T) c c'
      (do
        let first ← m
        let rest ← m'
        pure (first ++ rest))
      (do
        let first ← n
        let rest ← n'
        pure (first ++ rest)) := by
  refine h.bind fun {first _} hfirst => h'.bind fun {rest _} hrest => ?_
  obtain ⟨rfl, hfirst⟩ := hfirst
  obtain ⟨rfl, hrest⟩ := hrest
  exact .pure ⟨rfl, hT.append hfirst hrest⟩

theorem Renderer.Writes.reindent (hT : r.Writes Uses T) {name indent : String}
    (huses : Uses (.partialRef name indent) ∨ ∃ body, Uses (.inlined name indent body))
    {m m' : Render η σ String} (h : Render.Agrees J (Shared T) c c' m m') :
    Render.Agrees J (Shared T) c c' (do let text ← m; pure (r.indented indent text))
      (do let text ← m'; pure (r.indented indent text)) := by
  refine h.bind fun {text _} htext => ?_
  obtain ⟨rfl, htext⟩ := htext
  exact .pure ⟨rfl, hT.indented huses htext⟩

namespace Renderer.Accords

variable (hr : r.Accords Uses J T)
include hr

theorem eachFrame {body : Render η σ String}
    (hbody : ∀ c c', Render.Agrees J (Shared T) c c' body body) {frames : List Value}
    (hframes : ∀ frame ∈ frames, Opens J c c' frame) :
    Render.Agrees J (Shared T) c c' (Renderer.eachFrame body frames)
      (Renderer.eachFrame body frames) := by
  induction frames with
  | nil => exact .pure ⟨rfl, hr.writes.empty⟩
  | cons frame frames ih =>
    have hfirst : Render.Agrees J (Shared T) c c' (Renderer.withFrame frame body)
        (Renderer.withFrame frame body) :=
      .withFrame hr.nests (hframes frame List.mem_cons_self) (hbody _ _)
    exact hr.writes.concat hfirst (ih fun frame' h => hframes frame' (List.mem_cons_of_mem _ h))

theorem renderAll {enter : List Op → Render η σ String}
    (henter : ∀ ops, Op.All Uses ops →
      ∀ c c', Render.Agrees J (Shared T) c c' (enter ops) (enter ops)) (ops : List Op) :
    Op.All Uses ops → ∀ c c',
      Render.Agrees J (Shared T) c c' (Op.renderAll r enter ops) (Op.renderAll r enter ops) := by
  have hcons : ∀ {op ops},
      (Op.All Uses (op :: ops) → ∀ c c',
        Render.Agrees J (Shared T) c c' (Op.render r enter op) (Op.render r enter op)) →
      (Op.All Uses ops → ∀ c c',
        Render.Agrees J (Shared T) c c' (Op.renderAll r enter ops) (Op.renderAll r enter ops)) →
      Op.All Uses (op :: ops) → ∀ c c',
        Render.Agrees J (Shared T) c c' (Op.renderAll r enter (op :: ops))
          (Op.renderAll r enter (op :: ops)) := by
    intro op ops hop hops huses c c'
    rw [Op.renderAll]
    exact hr.writes.concat (hop huses c c') (hops huses.tail c c')
  induction ops using Op.listInduction with
  | nil =>
    intro _ c c'
    rw [Op.renderAll]
    exact .pure ⟨rfl, hr.writes.empty⟩
  | text s ops ih =>
    refine hcons (fun huses c c' => ?_) ih
    rw [Op.render]
    exact .pure ⟨rfl, hr.writes.text huses.head⟩
  | interpolation path escaped ops ih =>
    refine hcons (fun huses c c' => ?_) ih
    simp only [Op.render]
    refine (hr.resolve huses.head rfl).bind fun {v _} hv => ?_
    obtain ⟨rfl, hv, -⟩ := hv
    have hwritten : r.interpolate enter v = pure v.interpolated := by
      cases v with
      | lambda lambda => exact absurd rfl (hv lambda)
      | _ => rfl
    rw [hwritten, pure_bind]
    refine .pure ⟨rfl, ?_⟩
    cases escaped with
    | true => exact hr.writes.escaped v
    | false => exact hr.writes.plain v huses.head
  | block path body raw delimiters ops ihbody ih =>
    refine hcons (fun huses c c' => ?_) ih
    rw [Op.render_block]
    refine (hr.resolve huses.head rfl).bind fun {v _} hv => ?_
    obtain ⟨rfl, hv, hframes⟩ := hv
    rw [r.sectionText_eq_eachFrame enter _ raw delimiters fun lambda h => absurd h (hv lambda)]
    exact hr.eachFrame (ihbody huses.body) hframes
  | inverted path body ops ihbody ih =>
    refine hcons (fun huses c c' => ?_) ih
    simp only [Op.render]
    refine (hr.resolve huses.head rfl).bind fun {v _} hv => ?_
    obtain ⟨rfl, -⟩ := hv
    split
    · exact .pure ⟨rfl, hr.writes.empty⟩
    · exact ihbody huses.body c c'
  | partialRef name indent ops ih =>
    refine hcons (fun huses c c' => ?_) ih
    simp only [Op.render]
    refine .insidePartial hr.nests name fun depth => (hr.partialTemplate huses.head).bind ?_
    rintro _ _ ⟨hops | _, hinside⟩
    · dsimp only
      rw [← hops]
      exact hr.writes.reindent (.inl huses.head) (henter _ (hinside _ rfl) _ _)
    · exact .pure ⟨rfl, hr.writes.empty⟩
  | inlined name indent body ops ihbody ih =>
    refine hcons (fun huses c c' => ?_) ih
    simp only [Op.render]
    refine .insidePartial hr.nests name fun depth => ?_
    exact hr.writes.reindent (.inr ⟨body, huses.head⟩) (ihbody huses.body _ _)

/-- Rendering gives the same in both scenes. -/
theorem execute (limit : Nat) : ∀ ops, Op.All Uses ops → ∀ c c',
    Render.Agrees J (Shared T) c c' (r.execute limit ops) (r.execute limit ops) := by
  induction limit with
  | zero => exact fun _ _ _ _ => .throw _
  | succ limit ih => exact hr.renderAll ih

end Renderer.Accords

end Accords

/-! ## Scenes beside each other -/

/-- The same instructions are found from stores between which `L` is true, and it stays so. -/
def Resolver.Like (resolver : Resolver σ) (L : σ → σ → Prop) : Prop :=
  ∀ name store store', L store store' →
    Matches (Option.Rel fun t t' => t.ops = t'.ops) (resolver.partialTemplate name store).1
      (resolver.partialTemplate name store').1 ∧
    L (resolver.partialTemplate name store).2 (resolver.partialTemplate name store').2

theorem Resolver.like_eq (resolver : Resolver σ) : resolver.Like Eq := by
  rintro name store _ rfl
  exact ⟨Matches.refl (Option.rel_refl fun t : Template => Eq.refl t.ops) _, rfl⟩

/-- The relation stays true of contexts in which the same frames and partials are opened. -/
structure Context.Follows (C : Context → Context → Prop) : Prop where
  push {c c' : Context} (v : Value) : C c c' → C (c.push v) (c'.push v)
  depth {c c' : Context} : C c c' → c.partialDepth = c'.partialDepth
  enter {c c' : Context} (depth : Nat) : C c c' →
    C { c with partialDepth := depth } { c' with partialDepth := depth }

/-- A scene in a rendering of `start` from `origin`, and another one. -/
structure Renderer.Beside (r : Renderer η σ) (start : List Op) (origin : Scene η σ)
    (C : Context → Context → Prop) (K : η → η → Prop) (L : σ → σ → Prop) (c c' : Context)
    (kept : η) (store : σ) (kept' : η) (store' : σ) : Prop where
  contexts : C c c'
  within : Within r.host origin.context origin.host c kept
  visits : r.resolver.Visits start origin.store store
  hosts : K kept kept'
  stores : L store store'

section Beside

variable {r : Renderer η σ} {start : List Op} {origin : Scene η σ}
  {C : Context → Context → Prop} {K : η → η → Prop} {L : σ → σ → Prop} {T : String → Prop}

/-- Where the instructions find the same by their paths and no lambda, they do not tell the scenes
apart. -/
theorem Renderer.accords_beside (hC : Context.Follows C)
    (hfree : origin.context.LambdaFree r.host origin.host)
    (hresolve : ∀ op path, r.resolver.Uses start origin.store op → op.path? = some path →
      ∃ raw, path = .ofString raw ∧ ∀ c c' kept kept', C c c' → K kept kept' →
        Matches Eq (c.resolve r.host path kept).1 (c'.resolve r.host path kept').1 ∧
        K (c.resolve r.host path kept).2 (c'.resolve r.host path kept').2)
    (hresolver : r.resolver.Like L) (hwrites : r.Writes (r.resolver.Uses start origin.store) T) :
    r.Accords (r.resolver.Uses start origin.store) (r.Beside start origin C K L) T where
  nests :=
    { pop := fun h h' => ⟨h.contexts, h.within.closed h'.within, h'.visits, h'.hosts, h'.stores⟩
      depth := fun h => hC.depth h.contexts
      enter := fun depth h => ⟨hC.enter depth h.contexts, h.within.entered depth, h.visits, h.hosts,
        h.stores⟩ }
  writes := hwrites
  resolve := by
    intro op path c c' hop hpath kept store kept' store' h
    obtain ⟨raw, rfl, hfound⟩ := hresolve op path hop hpath
    obtain ⟨hanswer, hkept⟩ := hfound c c' kept kept' h.contexts h.hosts
    refine ⟨hanswer.and_ok fun v hv => ⟨?_, fun frame hframe => ?_⟩, rfl, rfl,
      ⟨h.contexts, h.within.look raw, h.visits, hkept, h.stores⟩⟩
    · rintro lambda rfl
      exact hfree c kept raw lambda h.within hv
    · exact fun _ _ _ _ h' => ⟨hC.push frame h'.contexts, h.within.opened hv hframe h'.within,
        h'.visits, h'.hosts, h'.stores⟩
  partialTemplate := by
    intro name indent c c' hop kept store kept' store' h
    obtain ⟨hfound, hstores⟩ := hresolver name store store' h.stores
    exact ⟨hfound.and_ok fun found hanswer template htemplate => hop.template h.visits
      (hanswer.trans (congrArg _ htemplate)), rfl, rfl,
      ⟨h.contexts, h.within, hop.visits h.visits, h.hosts, hstores⟩⟩

end Beside

end Mustache
