import Mustache.Proofs.Render.Accord
import Mustache.Proofs.Render.Scopes
import Mustache.Proofs.Text.Splitting

/-!
# Mustache.Proofs.Render.Invisible

Frames that answer no key.

A stack may hold any number of such frames more than another, wherever they lie (`Padded`): a path
leads to the same in both, unless it asks for the innermost frame itself. So instructions that do
not ask for it render to the same (`Renderer.accords_hidden`), and a section over values without
keys renders to what is in it, as many times as it has values (`Renderer.execute_hidden`).
-/

namespace Mustache

variable {η σ : Type}

/-! ## Values that answer no key -/

/-- There is nothing in the value under any key. -/
def Value.Mute (host : Host η) (v : Value) : Prop :=
  ∀ key s, (host.getOrCall v key s).1 = none

/-- There is nothing in the value under any key, and the host is not asked for it. -/
def Value.Silent (host : Host η) (v : Value) : Prop :=
  ∀ key s, host.getOrCall v key s = (none, s)

/-- No handle, and nothing in it. -/
def Value.bare : Value → Bool
  | .list items => items.isEmpty
  | .map fields => fields.isEmpty
  | .lambda _ | .record _ => false
  | _ => true

theorem Value.silent_of_bare {v : Value} (h : v.bare = true) (host : Host η) : v.Silent host := by
  intro key s
  cases v with
  | list items =>
    obtain rfl : items = [] := List.isEmpty_iff.1 h
    simp only [Host.getOrCall, Host.get, Host.invoke]
    cases index? key <;> rfl
  | map fields =>
    obtain rfl : fields = [] := List.isEmpty_iff.1 h
    rfl
  | lambda lambda => cases h
  | record record => cases h
  | _ => rfl

/-- Values without an answer, where `K` is true of what two hosts keep: it stays so when the second
is asked for one. -/
def Value.Absent (host : Host η) (K : η → η → Prop) (v : Value) : Prop :=
  ∀ key s s', K s s' → (host.getOrCall v key s').1 = none ∧ K s (host.getOrCall v key s').2

theorem Value.Silent.absent {host : Host η} {v : Value} (h : v.Silent host) : v.Absent host Eq := by
  rintro key s _ rfl
  rw [h key s]
  exact ⟨rfl, rfl⟩

theorem Value.Mute.absent {host : Host η} {v : Value} (h : v.Mute host) :
    v.Absent host fun _ _ => True := fun key _ s' _ => ⟨h key s', trivial⟩

/-! ## Stacks with such frames in them -/

/-- The second stack is the first with more frames in it, all of which are `P`. -/
inductive Padded (P : Value → Prop) : List Value → List Value → Prop where
  | nil : Padded P [] []
  | frame {frames frames'} (v : Value) : Padded P frames frames' →
      Padded P (v :: frames) (v :: frames')
  | hidden {v frames frames'} : P v → Padded P frames frames' → Padded P frames (v :: frames')

theorem Padded.refl (P : Value → Prop) (frames : List Value) : Padded P frames frames := by
  induction frames with
  | nil => exact .nil
  | cons v frames ih => exact .frame v ih

structure Context.Hides (P : Value → Prop) (c c' : Context) : Prop where
  globals : c.globals = c'.globals
  raiseOnMiss : c.raiseOnMiss = c'.raiseOnMiss
  partialDepth : c.partialDepth = c'.partialDepth
  frames : Padded P c.frames c'.frames

section Lookups

variable {host : Host η} {P : Value → Prop} {K : η → η → Prop}

theorem Padded.search (hhost : host.Like .same K host) (hP : ∀ v, P v → v.Absent host K)
    (key : String) {frames frames' : List Value} (h : Padded P frames frames') :
    ∀ {s s'}, K s s' → Answers .same K (host.search key frames s) (host.search key frames' s') := by
  induction h with
  | nil => exact fun hkept => ⟨.none, hkept⟩
  | frame v _ ih =>
    exact fun hkept => Answers.orElse (hhost.getOrCall key rfl hkept) fun _ _ => ih
  | @hidden v frames frames' hv _ ih =>
    intro s s' hkept
    obtain ⟨hnone, hkept'⟩ := hP v hv key s s' hkept
    have hasked : host.getOrCall v key s' = (none, (host.getOrCall v key s').2) :=
      Prod.ext hnone rfl
    rw [Host.search.eq_2, hasked]
    exact ih hkept'

namespace Context.Hides

variable {c c' : Context}

theorem refl (P : Value → Prop) (c : Context) : c.Hides P c := ⟨rfl, rfl, rfl, .refl P c.frames⟩

theorem follows (P : Value → Prop) : Context.Follows (Context.Hides P) where
  push v h := ⟨h.globals, h.raiseOnMiss, h.partialDepth, .frame v h.frames⟩
  depth h := h.partialDepth
  enter _ h := ⟨h.globals, h.raiseOnMiss, rfl, h.frames⟩

theorem hide (h : c.Hides P c') {v : Value} (hv : P v) : c.Hides P (c'.push v) :=
  ⟨h.globals, h.raiseOnMiss, h.partialDepth, .hidden hv h.frames⟩

theorem resolve (h : c.Hides P c') (hhost : host.Like .same K host)
    (hP : ∀ v, P v → v.Absent host K) {path : KeyPath} (hpath : path.segments ≠ []) {s s' : η}
    (hkept : K s s') :
    Matches Eq (c.resolve host path s).1 (c'.resolve host path s').1 ∧
      K (c.resolve host path s).2 (c'.resolve host path s').2 := by
  obtain ⟨first, rest, hsegments⟩ := List.exists_cons_of_ne_nil hpath
  have hglobals (key : String) : Option.Rel Eq (c.globals.get? key) (c'.globals.get? key) :=
    h.globals ▸ Option.rel_refl (fun _ => rfl) _
  have hfound : Answers .same K (c.lookup host path s) (c'.lookup host path s') :=
    (h.frames.search hhost hP first hkept).lookup hhost hglobals hsegments
  exact hfound.resolve h.raiseOnMiss

end Context.Hides

end Lookups

/-! ## Instructions that do not ask for the innermost frame -/

theorem KeyPath.segments_ne_nil {raw : String} (h : raw ≠ ".") :
    (KeyPath.ofString raw).segments ≠ [] := by
  rw [ofString, if_neg h]
  exact fun hnil => Text.split_ne_nil '.' raw.toList (List.map_eq_nil_iff.1 hnil)

/-- The path of the instruction, if it has one, is read from a tag and has segments. -/
def Op.Keyed (op : Op) : Prop :=
  ∀ path, op.path? = some path → ∃ raw, raw ≠ "." ∧ path = .ofString raw

@[simp] theorem Op.keyed_text (s : String) : (Op.text s).Keyed := fun _ => nofun

@[simp] theorem Op.keyed_partialRef (name indent : String) : (Op.partialRef name indent).Keyed :=
  fun _ => nofun

@[simp] theorem Op.keyed_interpolation (raw : String) (escaped : Bool) :
    (Op.interpolation (.ofString raw) escaped).Keyed ↔ raw ≠ "." := by
  constructor
  · rintro h rfl
    obtain ⟨raw, hraw, hpath⟩ := h _ rfl
    exact KeyPath.segments_ne_nil hraw (congrArg KeyPath.segments hpath).symm
  · rintro h _ ⟨⟩
    exact ⟨raw, h, rfl⟩

theorem Resolver.Steady.like {resolver : Resolver σ} {Ready : σ → Prop} {known : String → Prop}
    (h : resolver.Steady Ready known) :
    resolver.Like fun store store' => Ready store ∧ Ready store' :=
  fun name _ _ hready => ⟨h.partialTemplate name hready.1 hready.2, h.keepsPartial name hready.1,
    h.keepsPartial name hready.2⟩

theorem Host.like_eq (host : Host η) : host.Like .same Eq host where
  field := by
    rintro s _ record key rfl
    exact ⟨Option.rel_refl (fun _ => rfl) _, rfl⟩
  method := by
    rintro s _ record key rfl
    exact ⟨Option.rel_refl (fun _ => rfl) _, rfl⟩

/-- A scene in a rendering of `start` from `origin`, and one with more frames, all of them `P`. -/
abbrev Renderer.Hidden (r : Renderer η σ) (start : List Op) (origin : Scene η σ)
    (P : Value → Prop) (K : η → η → Prop) (L : σ → σ → Prop) : Meeting η σ :=
  r.Beside start origin (Context.Hides P) K L

section Hidden

variable {r : Renderer η σ} {start : List Op} {origin : Scene η σ} {P : Value → Prop}
  {K : η → η → Prop} {L : σ → σ → Prop}

/-- Instructions that do not ask for the innermost frame do not see hidden ones. -/
theorem Renderer.accords_hidden (hfree : origin.context.LambdaFree r.host origin.host)
    (hkeyed : ∀ op, r.resolver.Uses start origin.store op → op.Keyed)
    (hhost : r.host.Like .same K r.host) (hP : ∀ v, P v → v.Absent r.host K)
    (hresolver : r.resolver.Like L) :
    r.Accords (r.resolver.Uses start origin.store) (r.Hidden start origin P K L)
      fun _ => True := by
  refine Renderer.accords_beside (Context.Hides.follows P) hfree ?_ hresolver (r.writes_any _)
  intro op path hop hpath
  obtain ⟨raw, hraw, rfl⟩ := hkeyed op hop path hpath
  exact ⟨raw, rfl, fun _ _ _ _ hides hkept =>
    hides.resolve hhost hP (KeyPath.segments_ne_nil hraw) hkept⟩

/-! ## Sections over values without keys -/

/-- The step taken so many times, and what it gives put together. -/
def Render.copies (m : Render η σ String) : Nat → Render η σ String
  | 0 => pure ""
  | n + 1 => do
    let first ← m
    let rest ← copies m n
    pure (first ++ rest)

theorem Render.copies_one (m : Render η σ String) : m.copies 1 = m := by
  simp only [copies, pure_bind, String.append_empty, bind_pure]

namespace Render.Agrees

variable {T : String → Prop} {c c' : Context} {m : Render η σ String}

theorem withFrame_hidden {frame : Value} (hframe : P frame)
    (h : Render.Agrees (r.Hidden start origin P K L) (Shared T) c (c'.push frame) m m) :
    Render.Agrees (r.Hidden start origin P K L) (Shared T) c c' m (Renderer.withFrame frame m) := by
  intro kept store kept' store' hmeet
  obtain ⟨hanswer, hcontext, hcontext', hafter⟩ := h _ _ _ _
    ⟨hmeet.contexts.hide hframe, hmeet.within, hmeet.visits, hmeet.hosts, hmeet.stores⟩
  exact ⟨hanswer, hcontext, congrArg Context.pop hcontext', hmeet.contexts, hafter.within,
    hafter.visits, hafter.hosts, hafter.stores⟩

theorem copies_hidden
    (h : ∀ c c', Render.Agrees (r.Hidden start origin P K L) (Shared fun _ => True) c c' m m)
    {frames : List Value} (hframes : ∀ frame ∈ frames, P frame) :
    Render.Agrees (r.Hidden start origin P K L) (Shared fun _ => True) c c'
      (m.copies frames.length) (Renderer.eachFrame m frames) := by
  induction frames with
  | nil => exact .pure ⟨rfl, trivial⟩
  | cons frame frames ih =>
    have hfirst := withFrame_hidden (hframes frame List.mem_cons_self) (h c (c'.push frame))
    have hrest := ih fun frame' hmem => hframes frame' (List.mem_cons_of_mem _ hmem)
    exact (r.writes_any fun _ => True).concat hfirst hrest

theorem eq_of_hidden {m' : Render η σ String}
    (h : Render.Agrees (r.Hidden start origin P Eq Eq) (Shared T) c c m m') {kept : η} {store : σ}
    (hwithin : Within r.host origin.context origin.host c kept)
    (hvisits : r.resolver.Visits start origin.store store) :
    m ⟨c, kept, store⟩ = m' ⟨c, kept, store⟩ := by
  obtain ⟨hanswer, hcontext, hcontext', hafter⟩ :=
    h _ _ _ _ ⟨.refl P c, hwithin, hvisits, rfl, rfl⟩
  have hkept := hafter.hosts
  have hstores := hafter.stores
  revert hanswer hcontext hcontext' hkept hstores
  rcases m ⟨c, kept, store⟩ with ⟨answer, d, kept₁, store₁⟩
  rcases m' ⟨c, kept, store⟩ with ⟨answer', d', kept₁', store₁'⟩
  rintro (_ | ⟨rfl, -⟩) ⟨⟩ ⟨⟩ ⟨⟩ ⟨⟩ <;> rfl

end Render.Agrees

end Hidden

/-! ## The same answer each time -/

/-- A text so many times; or the error, if there is to be one text at all. -/
def copiesOf (answer : Except Error String) (n : Nat) : Except Error String :=
  if n = 0 then .ok "" else answer.map fun text => String.join (List.replicate n text)

theorem copiesOf_one (answer : Except Error String) : copiesOf answer 1 = answer := by
  cases answer with
  | error e => rfl
  | ok text => simp [copiesOf, Except.map]

theorem copiesOf_succ (answer : Except Error String) (n : Nat) :
    copiesOf answer (n + 1) = (do
      let first ← answer
      let rest ← copiesOf answer n
      pure (first ++ rest)) := by
  cases answer with
  | error e => rfl
  | ok text =>
    cases n with
    | zero => simp [copiesOf, Except.map, bind, Except.bind, pure, Except.pure]
    | succ n =>
      simp [copiesOf, Except.map, bind, Except.bind, pure, Except.pure, List.replicate_succ]

theorem concat_answer (m m' : Render η σ String) (scene : Scene η σ) :
    ((do
      let first ← m
      let rest ← m'
      pure (first ++ rest)) scene).1 =
    (do
      let first ← (m scene).1
      let rest ← (m' (m scene).2).1
      pure (first ++ rest)) := by
  rw [bind_apply]
  rcases m scene with ⟨e | first, scene₁⟩
  · rfl
  · dsimp only
    rw [bind_apply]
    rcases m' scene₁ with ⟨e | rest, scene₂⟩ <;> rfl

theorem Renderer.eachFrame_answers {Ready : σ → Prop} {c : Context} {body : Render η σ String}
    {answer : Except Error String} {frames : List Value}
    (h : ∀ frame ∈ frames, ∀ kept store, Ready store →
      let result := withFrame frame body ⟨c, kept, store⟩
      result.1 = answer ∧ result.2.context = c ∧ Ready result.2.store) :
    ∀ kept store, Ready store →
      (eachFrame body frames ⟨c, kept, store⟩).1 = copiesOf answer frames.length := by
  induction frames with
  | nil => exact fun _ _ _ => rfl
  | cons frame frames ih =>
    intro kept store hready
    obtain ⟨hanswer, hcontext, hready'⟩ := h frame List.mem_cons_self kept store hready
    have hrest := ih fun frame' hmem => h frame' (List.mem_cons_of_mem _ hmem)
    rw [eachFrame, concat_answer, List.length_cons, copiesOf_succ]
    generalize withFrame frame body ⟨c, kept, store⟩ = result at hanswer hcontext hready'
    obtain ⟨answer', d, kept₁, store₁⟩ := result
    obtain rfl : answer' = answer := hanswer
    obtain rfl : d = c := hcontext
    rw [← hrest kept₁ store₁ hready']

/-! ## Sections -/

/-- A section whose value is no lambda is its body, rendered for each frame that it opens. -/
theorem Renderer.execute_block {r : Renderer η σ} {scene : Scene η σ} {path : KeyPath} {v : Value}
    {kept : η} (hfound : scene.context.resolve r.host path scene.host = (.ok v, kept))
    (hv : ∀ lambda, v ≠ .lambda lambda) (limit : Nat) (body : List Op) (raw : String)
    (delimiters : Delimiters) :
    r.execute (limit + 1) [.block path body raw delimiters] scene =
      eachFrame (r.execute (limit + 1) body) v.frames { scene with host := kept } := by
  have hresolved : r.resolve path scene = (.ok v, { scene with host := kept }) := by
    rw [resolve, hfound]
  simp only [execute, Op.renderAll, Op.render_block, pure_bind, String.append_empty, bind_pure]
  rw [bind_apply, hresolved]
  dsimp only
  rw [r.sectionText_eq_eachFrame _ _ raw delimiters fun lambda h => absurd h (hv lambda)]

theorem Value.frames_of_truthy {v : Value} (h : v.isTruthy = true)
    (hlist : ∀ items, v ≠ .list items) : v.frames = [v] := by
  cases v with
  | list items => exact absurd rfl (hlist items)
  | _ => simp only [frames, h, if_true]

namespace Renderer

section Blocks

variable (r : Renderer η σ) (limit : Nat) {path : String} {body : List Op} (raw : String)
  (delimiters : Delimiters) {scene : Scene η σ} {v : Value} {kept : η}
  (hfree : scene.context.LambdaFree r.host scene.host)
  (hkeyed : ∀ op, r.resolver.Uses body scene.store op → op.Keyed)
  (hfound : scene.context.resolve r.host (.ofString path) scene.host = (.ok v, kept))
include hfree hkeyed hfound

omit hkeyed in
theorem execute_block_frames :
    r.execute (limit + 1) [.block (.ofString path) body raw delimiters] scene =
      eachFrame (r.execute (limit + 1) body) v.frames { scene with host := kept } := by
  refine execute_block hfound ?_ limit body raw delimiters
  rintro lambda rfl
  exact hfree _ _ path lambda .start (congrArg Prod.fst hfound)

theorem execute_block_silent (hframes : ∀ frame ∈ v.frames, frame.Silent r.host) :
    r.execute (limit + 1) [.block (.ofString path) body raw delimiters] scene =
      (r.execute (limit + 1) body).copies v.frames.length { scene with host := kept } := by
  have hwithin : Within r.host scene.context scene.host scene.context kept := by
    have hlook : Within r.host scene.context scene.host scene.context _ := .look path .start
    rwa [hfound] at hlook
  have haccords := r.accords_hidden hfree hkeyed r.host.like_eq (fun _ => Value.Silent.absent)
    r.resolver.like_eq
  have hbody := haccords.execute (limit + 1) body (r.resolver.all_uses body scene.store)
  rw [r.execute_block_frames limit raw delimiters hfree hfound]
  exact ((Render.Agrees.copies_hidden hbody hframes).eq_of_hidden hwithin
    (r.resolver.visits_initial body scene.store)).symm

theorem execute_block_mute {Ready : σ → Prop} (hrecords : r.host.SteadyRecords)
    (hresolver : r.resolver.Steady Ready fun _ => False) (hready : Ready scene.store)
    (hframes : ∀ frame ∈ v.frames, frame.Mute r.host) :
    (r.execute (limit + 1) [.block (.ofString path) body raw delimiters] scene).1 =
      copiesOf (r.execute (limit + 1) body scene).1 v.frames.length := by
  have haccords := r.accords_hidden hfree hkeyed (hrecords.like fun _ _ => trivial)
    (fun _ => Value.Mute.absent) hresolver.like
  have hbody := haccords.execute (limit + 1) body (r.resolver.all_uses body scene.store)
  rw [r.execute_block_frames limit raw delimiters hfree hfound]
  -- each frame is compared with the body in its place, from the scene as it was at first
  refine eachFrame_answers (fun frame hframe kept' store' hready' => ?_) kept scene.store hready
  obtain ⟨hanswer, -, hcontext, hafter⟩ :=
    (hbody scene.context _).withFrame_hidden (hframes frame hframe) _ _ kept' store'
      ⟨.refl _ scene.context, .start, r.resolver.visits_initial body scene.store, trivial, hready,
        hready'⟩
  exact ⟨hanswer.eq_of_shared.symm, hcontext, hafter.stores.2⟩

end Blocks

/-- A section over values that answer no key. Behind the lookup of its path it is its body, once for
one value, and once for each in a list, whatever looking up and rendering change. Where records
answer the same whatever was done before, and the same templates are found again, it gives the text
of its body in the place of the section, so many times, or the error. -/
theorem execute_hidden (r : Renderer η σ) (limit : Nat) {path : String} {body : List Op}
    (raw : String) (delimiters : Delimiters) {scene : Scene η σ} {v : Value} {kept : η}
    (hfree : scene.context.LambdaFree r.host scene.host)
    (hkeyed : ∀ op, r.resolver.Uses body scene.store op → op.Keyed)
    (hfound : scene.context.resolve r.host (.ofString path) scene.host = (.ok v, kept)) :
    let block := r.execute (limit + 1) [.block (.ofString path) body raw delimiters]
    let inPlace := r.execute (limit + 1) body
    let behind : Scene η σ := { scene with host := kept }
    (v.isTruthy = true → (∀ items, v ≠ .list items) → v.Silent r.host →
      block scene = inPlace behind) ∧
    (∀ items, v = .list items → (∀ item ∈ items, item.Silent r.host) →
      block scene = inPlace.copies items.length behind) ∧
    ∀ Ready, r.host.SteadyRecords → r.resolver.Steady Ready (fun _ => False) →
      Ready scene.store →
      (v.isTruthy = true → (∀ items, v ≠ .list items) → v.Mute r.host →
        (block scene).1 = (inPlace scene).1) ∧
      ∀ items, v = .list items → (∀ item ∈ items, item.Mute r.host) →
        (block scene).1 = copiesOf (inPlace scene).1 items.length := by
  intro block inPlace behind
  have hsilent := r.execute_block_silent limit raw delimiters hfree hkeyed hfound
  refine ⟨fun htruthy hlist hv => ?_, ?_, fun Ready hrecords hresolver hready => ?_⟩
  · rw [Value.frames_of_truthy htruthy hlist, List.length_singleton, Render.copies_one] at hsilent
    exact hsilent fun frame hframe => List.mem_singleton.1 hframe ▸ hv
  · rintro items rfl hitems
    exact hsilent hitems
  · have hmute := r.execute_block_mute limit raw delimiters hfree hkeyed hfound hrecords hresolver
      hready
    constructor
    · intro htruthy hlist hv
      rw [Value.frames_of_truthy htruthy hlist, List.length_singleton, copiesOf_one] at hmute
      exact hmute fun frame hframe => List.mem_singleton.1 hframe ▸ hv
    · rintro items rfl hitems
      exact hmute hitems

/-- Empty maps and a number, around a body with a partial. -/
theorem execute_hidden_partial :
    let found : Template := ⟨{}, [.interpolation (.ofString "a") true], []⟩
    let resolver : Resolver Unit :=
      { partialTemplate := fun _ _ => (.ok (some found), ())
        dynamicTemplate := fun _ _ _ => (.ok found, ()) }
    let r : Renderer Unit Unit := ⟨{}, .empty, resolver⟩
    let scene : Scene Unit Unit := ⟨.ofValue (.map [("a", .text "x"),
      ("l", .list [.integer 1, .map []]), ("m", .map [])]), (), ()⟩
    let body : List Op := [.text "-", .partialRef "p" ""]
    let block (path : String) : List Op := [.block (.ofString path) body "" .standard]
    scene.context.LambdaFree r.host scene.host ∧
      (∀ op, resolver.Uses body () op → op.Keyed) ∧
      r.execute 2 (block "m") scene = r.execute 2 body scene ∧
      (r.execute 2 (block "l") scene).1 = copiesOf (r.execute 2 body scene).1 2 ∧
      copiesOf (r.execute 2 body scene).1 2 = .ok "-x-x" := by
  intro found resolver r scene body block
  have hfree : scene.context.LambdaFree r.host scene.host :=
    lambdaFree_of_values (by rintro _ _ _ _ (h | h) <;> cases h)
      (fun frame h => by cases List.mem_singleton.1 h; decide) rfl ()
  have hkeyed : ∀ op, r.resolver.Uses body scene.store op → op.Keyed := by
    intro op huses
    refine huses.of_found (.of_flat ?_) fun name _ store template _ _ hanswer => ?_
    · simp [body, Op.body]
    · cases hanswer
      exact .of_flat (by simp [found, Op.body])
  have hsteady : resolver.Steady (fun _ => True) fun _ => False :=
    { partialTemplate := fun _ _ _ _ _ => .ok (.some rfl)
      dynamicTemplate := fun _ _ _ h => h.elim
      keepsPartial := fun _ _ _ => trivial
      keepsDynamic := fun _ _ h => h.elim }
  refine ⟨hfree, hkeyed, ?_, ?_, by decide +kernel⟩
  · obtain ⟨hsingle, -⟩ := r.execute_hidden 1 "" .standard hfree hkeyed
      (show scene.context.resolve r.host (.ofString "m") () = (.ok (.map []), ()) by rfl)
    exact hsingle rfl (fun _ => nofun) (Value.silent_of_bare rfl _)
  · obtain ⟨-, -, hagain⟩ := r.execute_hidden 1 "" .standard hfree hkeyed
      (show scene.context.resolve r.host (.ofString "l") () =
        (.ok (.list [.integer 1, .map []]), ()) by rfl)
    obtain ⟨-, hlist⟩ := hagain _ (fun _ _ _ _ => ⟨rfl, rfl⟩) hsteady trivial
    refine hlist _ rfl fun item hitem key s => ?_
    obtain rfl | rfl : item = .integer 1 ∨ item = .map [] := by simpa using hitem
    · rfl
    · rfl

/-- Where the conditions do not hold: a partial that is there only the second time that it is looked
for; and a record that counts how often it is asked for what a section is over. -/
theorem execute_hidden_exceptions :
    (let late : Template := ⟨{}, [.text "x"], []⟩
     let resolver : Resolver Nat :=
      { partialTemplate := fun _ n => (.ok (if n = 0 then none else some late), n + 1)
        dynamicTemplate := fun _ _ n => (.ok late, n) }
     let r : Renderer Unit Nat := ⟨{}, .empty, resolver⟩
     let items : List Value := [.bool true, .bool true]
     let scene : Scene Unit Nat := ⟨.ofValue (.map [("l", .list items)]), (), 0⟩
     let body : List Op := [.partialRef "p" ""]
     scene.context.LambdaFree r.host scene.host ∧
      (∀ op, resolver.Uses body 0 op → op.Keyed) ∧
      (∀ item ∈ items, item.isTruthy = true ∧ item.Silent r.host) ∧
      scene.context.resolve r.host (.ofString "l") () = (.ok (.list items), ()) ∧
      (r.execute 2 body scene).1 = .ok "" ∧
      (r.execute 2 [.block (.ofString "l") body "" .standard] scene).1 = .ok "x" ∧
      copiesOf (.ok "") items.length ≠ .ok "x") ∧
    let host : Host Nat := { call := fun _ _ n => (.null, n)
                             field := fun _ key n => if key = "t" then (some (.bool true), n + 1)
                               else (some (.integer n), n)
                             method := fun _ _ n => (none, n) }
    let r : Renderer Nat Unit := ⟨{}, host, Resolver.noPartials {}⟩
    let scene : Scene Nat Unit := ⟨.ofValue (.map [("r", .record ⟨0⟩)]), 0, ()⟩
    let body : List Op := [.interpolation (.ofString "r.n") true]
    scene.context.LambdaFree r.host scene.host ∧
      (∀ op, r.resolver.Uses body () op → op.Keyed) ∧
      (Value.bool true).Silent r.host ∧
      (scene.context.resolve r.host (.ofString "r.t") 0).1 = .ok (.bool true) ∧
      (r.execute 2 body scene).1 = .ok "0" ∧
      (r.execute 2 [.block (.ofString "r.t") body "" .standard] scene).1 = .ok "1" := by
  constructor
  · intro late resolver r items scene body
    have hfree : scene.context.LambdaFree r.host scene.host :=
      lambdaFree_of_values (by rintro _ _ _ _ (h | h) <;> cases h)
        (fun frame h => by cases List.mem_singleton.1 h; decide) rfl ()
    refine ⟨hfree, fun op huses => ?_, fun item hitem => ?_, rfl, by decide +kernel,
      by decide +kernel, by decide⟩
    · refine huses.of_found (.of_flat ?_) fun name _ n template _ _ hanswer => ?_
      · simp [body, Op.body]
      · obtain rfl : template = late := by
          simp only [resolver, Except.ok.injEq] at hanswer
          split at hanswer <;> cases hanswer
          rfl
        exact .of_flat (by simp [late, Op.body])
    · obtain rfl : item = .bool true := by simpa [items] using hitem
      exact ⟨rfl, Value.silent_of_bare rfl _⟩
  · intro host r scene body
    have hhost : host.LambdaFree := by
      rintro record key n v (h | h)
      · simp only [host] at h
        split at h <;> cases h <;> rfl
      · cases h
    have hfree : scene.context.LambdaFree r.host scene.host :=
      lambdaFree_of_values hhost (fun frame h => by cases List.mem_singleton.1 h; decide) rfl 0
    refine ⟨hfree, fun op huses => ?_, Value.silent_of_bare rfl _, rfl, by decide +kernel,
      by decide +kernel⟩
    refine huses.of_found (.of_flat ?_) fun _ _ _ _ _ _ hanswer => nomatch hanswer
    simp [body, Op.body]

end Renderer

end Mustache
