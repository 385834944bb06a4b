import Mustache.Proofs.Engine.Inlining
import Mustache.Proofs.Render.Scopes
import Mustache.Proofs.Tree.Document

/-!
# Mustache.Proofs.Engine.OwnDelimiters

Which delimiters partials are read with.

A partial that is looked up is read with the delimiters of the engine. A partial that is compiled
into a text is read with the delimiters of that text, and these are other ones where a lambda
returned the text. `Interpreter.Meets` says which nodes a rendering may come to, and with which
delimiters the text around them is read. If no partial tag is among those that stand in a text read
with other delimiters (`Interpreter.OwnDelimiters`), all renderings that succeed give the text that
the source means (`Engine.renderInContext_agrees`), and so the same one, partials compiled in or not
and lambdas included: `renderInContext_agree`. So it is with an engine
for the standard delimiters where no text changes them (`Engine.ownDelimiters_of_unswitched`).
Without the condition they need not: `renderInContext_disagree`.
-/

namespace Mustache

open Node

variable {η σ : Type}

/-! ## What a rendering may come to -/

/-- Interpreting the tree may come to these nodes, in a text that is read with these delimiters. -/
inductive Interpreter.Meets (i : Interpreter η) (tree : Tree) :
    Delimiters → List Node → Prop where
  | start : Meets i tree i.delimiters tree
  | rest {pair node nodes} : Meets i tree pair (node :: nodes) → Meets i tree pair nodes
  | body {pair path inverted children raw delimiters opening closing nodes} :
      Meets i tree pair (.block path inverted children raw delimiters opening closing :: nodes) →
      Meets i tree pair children
  | ofPartial {pair name indent span nodes found} :
      Meets i tree pair (.partialTag name indent span :: nodes) →
      i.partialTree name = .ok (some found) →
      Meets i tree i.delimiters found
  | ofVariable {pair path escaped span nodes lambda kept text expanded} :
      Meets i tree pair (.interpolation path escaped span :: nodes) →
      i.disableLambdas = false → (i.host.call lambda "" kept).1 = .text text →
      Tree.parse text.toList .standard = .ok expanded →
      Meets i tree .standard expanded
  | ofSection {pair path children raw delimiters opening closing nodes lambda kept text
      expanded} :
      Meets i tree pair (.block path false children raw delimiters opening closing :: nodes) →
      i.disableLambdas = false → (i.host.call lambda raw kept).1 = .text text →
      Tree.parse text.toList delimiters = .ok expanded →
      Meets i tree delimiters expanded

/-- Partial tags stand only in texts that are read with the delimiters that partials are read
with. -/
def Interpreter.OwnDelimiters (i : Interpreter η) (tree : Tree) : Prop :=
  ∀ {pair name indent span nodes},
    i.Meets tree pair (.partialTag name indent span :: nodes) → pair = i.delimiters

/-- All sections of the text are opened with the standard delimiters. -/
def Unswitched (text : String) : Prop :=
  ∀ {tree}, Tree.parse text.toList .standard = .ok tree →
    ∀ s ∈ sectionsAll tree, s.delimiters = .standard

instance (text : String) : Decidable (Unswitched text) :=
  match hparse : Tree.parse text.toList .standard with
  | .error _ => isTrue fun {_} h => nomatch hparse.symm.trans h
  | .ok tree => decidable_of_iff (∀ s ∈ sectionsAll tree, s.delimiters = .standard)
      ⟨fun h {_} htree => Except.ok.inj (hparse.symm.trans htree) ▸ h, fun h => h hparse⟩

theorem Interpreter.partialTree_eq_some {i : Interpreter η} {name : String} {found : Tree}
    (h : i.partialTree name = .ok (some found)) :
    ∃ text, i.source name = .ok (some text) ∧
      Tree.parse text.toList i.delimiters = .ok found := by
  rw [partialTree] at h
  split at h
  · cases h
  · cases h
  · rename_i text hsource
    refine ⟨text, hsource, ?_⟩
    cases hparse : Tree.parse text.toList i.delimiters with
    | error error =>
      rw [hparse] at h
      cases h
    | ok tree =>
      rw [hparse] at h
      cases h
      rfl

/-- So it is wherever delimiters are not changed and the engine has the standard ones. -/
theorem Engine.ownDelimiters_of_unswitched {e : Engine} {host : Host η} {files : Files}
    {source : String} (hdelimiters : e.options.delimiters = .standard)
    (hsource : Unswitched source)
    (hpartials : ∀ name text, e.partialSource files name = .ok (some text) → Unswitched text)
    (htexts : ∀ lambda raw kept text, (host.call lambda raw kept).1 = .text text →
      Unswitched text) {tree : Tree} (htree : e.tokens source = .ok tree) :
    (e.interpreter host files).OwnDelimiters tree := by
  have hall : ∀ {pair nodes}, (e.interpreter host files).Meets tree pair nodes →
      pair = .standard ∧ ∀ s ∈ sectionsAll nodes, s.delimiters = .standard := by
    intro pair nodes h
    induction h with
    | start =>
      rw [Engine.tokens, hdelimiters] at htree
      exact ⟨hdelimiters, hsource htree⟩
    | rest _ ih => exact ⟨ih.1, fun s hs => ih.2 s (List.mem_append_right _ hs)⟩
    | body _ ih =>
      refine ⟨ih.1, fun s hs => ih.2 s ?_⟩
      rw [sectionsAll, sections]
      exact List.mem_append_left _ (List.mem_cons_of_mem _ hs)
    | ofPartial _ hfound _ =>
      obtain ⟨text, htext, hparse⟩ := Interpreter.partialTree_eq_some hfound
      rw [show (e.interpreter host files).delimiters = .standard from hdelimiters] at hparse
      exact ⟨hdelimiters, hpartials _ _ htext hparse⟩
    | ofVariable _ _ hcall hparse _ => exact ⟨rfl, htexts _ _ _ _ hcall hparse⟩
    | ofSection _ _ hcall hparse ih =>
      have hpair := ih.2 _ (by rw [sectionsAll, sections]; exact List.mem_cons_self)
      obtain rfl : _ = Delimiters.standard := hpair
      exact ⟨rfl, htexts _ _ _ _ hcall hparse⟩
  intro pair name indent span nodes h
  exact (hall h).1.trans hdelimiters.symm

/-! ## Compiled trees -/

variable {r : Renderer η σ} {i : Interpreter η} {partials : PartialSources} {Ready : σ → Prop}

/-- Instructions give the text that the tree means that they were compiled from, if they give one,
or the tree fails in a way that is excused. -/
abbrev Agrees (Excused : Error → Prop) (Ready : σ → Prop) (m : Render η σ String)
    (f : Meaning η String) (c : Context) (kept : η) : Prop :=
  Realizes Excused (fun _ => True) Ready Eq m f c kept

/-- From this context, trees may be entered as deep as instructions may, and all partials besides
that may still be opened. -/
structure Ample (n m : Nat) (c : Context) : Prop where
  le : n ≤ m
  depth : n + maxPartialDepth ≤ m + c.partialDepth

namespace Ample

variable {n m : Nat} {c : Context}

theorem inline (h : Ample n m c) (hdepth : c.partialDepth < maxPartialDepth) :
    ∃ m', m = m' + 1 ∧ Ample n m' { c with partialDepth := c.partialDepth + 1 } := by
  have hle := h.depth
  refine ⟨m - 1, by omega, by omega, ?_⟩
  show _ ≤ _ + (c.partialDepth + 1)
  omega

theorem enter (h : Ample (n + 1) m c) : ∃ m', m = m' + 1 ∧ Ample n m' c := by
  have hle := h.le
  have hdepth := h.depth
  exact ⟨m - 1, by omega, by omega, by omega⟩

theorem deeper (h : Ample n m c) : Ample n m { c with partialDepth := c.partialDepth + 1 } :=
  ⟨h.le, Nat.le_succ_of_le h.depth⟩

end Ample

variable {Excused : Error → Prop}

/-- Entering a template does what entering its tree means, if its instructions do what its nodes
mean. -/
theorem agrees_enter {c : Context} {kept : η} {ops : List Op} {tree : Tree} {n m : Nat}
    (hpace : Excused .expansionLimit ∨ Ample n m c)
    (h : ∀ n' m', n = n' + 1 → (Excused .expansionLimit ∨ Ample n' m' c) →
      Agrees Excused Ready (Op.renderAll r (r.execute n') ops)
        (interpretAll i (Tree.interpret i m') c tree) c kept) :
    Agrees Excused Ready (r.execute n ops) (Tree.interpret i m c tree) c kept := by
  cases n with
  | zero => exact .of_fails fun store => ⟨_, _, rfl, trivial⟩
  | succ n =>
    rcases hpace with hlimit | hample
    · cases m with
      | zero => exact .inl ⟨_, kept, rfl, hlimit⟩
      | succ m => exact h n m rfl (.inl hlimit)
    · obtain ⟨m', rfl, hample'⟩ := hample.enter
      exact h n m' rfl (.inr hample')

theorem Expands.agrees (hr : r.Follows i partials Ready) (hsource : partials.source = i.source)
    (hexcused : ∀ name, Excused (.partialRecursion name maxPartialDepth)) {tree : Tree}
    (hown : i.OwnDelimiters tree) (n : Nat) :
    ∀ {delimiters left enclosing nodes known ops known'},
      Expands partials delimiters left enclosing nodes known ops known' →
      i.Meets tree delimiters nodes → ∀ {m c kept}, (Excused .expansionLimit ∨ Ample n m c) →
        Agrees Excused Ready (Op.renderAll r (r.execute n) ops)
          (interpretAll i (Tree.interpret i m) c nodes) c kept := by
  -- The outer induction goes into the templates that are entered, the inner one into the
  -- sections and partials that are part of the instructions.
  induction n using Nat.strongRecOn with
  | ind n ihn =>
    have hallowed : ∀ {room delimiters}, partials.Suffice room delimiters fun _ => True :=
      .inr fun _ => trivial
    have henter : ∀ {delimiters expanded ops dependencies m c kept},
        Expands partials delimiters r.options.room [] expanded [] ops dependencies →
        i.Meets tree delimiters expanded → (Excused .expansionLimit ∨ Ample n m c) →
          Agrees Excused Ready (r.execute n ops) (Tree.interpret i m c expanded) c kept := by
      intro delimiters expanded ops dependencies m c kept hops hmeets hpace
      refine agrees_enter hpace fun n' m' hn hpace' => ?_
      exact ihn n' (by omega) hops hmeets hpace'
    intro delimiters left enclosing nodes known ops known' h
    induction h with
    | nil =>
      intro _ m c kept _
      rw [Op.renderAll, interpretAll]
      exact .pure rfl
    | text _ ih =>
      intro hmeets m c kept hpace
      rw [renderAll_append_text, interpretAll]
      refine Realizes.append ?_ fun _ _ _ => ih hmeets.rest hpace
      rw [Op.render, interpret]
      exact .pure rfl
    | comment _ ih =>
      intro hmeets m c kept hpace
      rw [interpretAll_comment]
      exact ih hmeets.rest hpace
    | interpolation _ ih =>
      intro hmeets m c kept hpace
      refine .cons (hr.interpolation ?_ _ _) fun _ _ _ => ih hmeets.rest hpace
      intro lambda kept₁ _ henabled
      exact hr.expand hallowed fun _ _ _ _ _ hcall htree hops =>
        henter hops (.ofVariable hmeets henabled hcall htree) hpace
    | block _ _ ihc ih =>
      intro hmeets m c kept hpace
      refine .cons (hr.ofBlock (scoped_true i.host) ?_ trivial (fun _ _ => ihc hmeets.body hpace)
        (fun frame _ _ _ => ⟨ihc hmeets.body (hpace.imp_right fun h => ⟨h.le, h.depth⟩),
          fun _ _ _ => trivial⟩) _ _) fun _ _ _ => ih hmeets.rest hpace
      rintro rfl lambda kept₁ _ henabled
      exact hr.expand hallowed fun _ _ _ _ _ hcall htree hops =>
        henter hops (.ofSection hmeets henabled hcall htree) hpace
    | reference _ _ ih =>
      intro hmeets m c kept hpace
      refine .cons (hr.partialRef hallowed ?_ _ _) fun _ _ _ => ih hmeets.rest hpace
      rintro t found _ hfound ⟨dependencies, hops⟩
      exact henter hops (.ofPartial hmeets hfound) (hpace.imp_right Ample.deeper)
    | @missing _ _ name _ _ _ _ _ _ _ _ _ hmissing _ ih =>
      intro hmeets m c kept hpace
      have hfound : i.partialTree name = .ok none := by
        rw [Interpreter.partialTree, ← hsource, hmissing]
      rw [interpretAll, interpret, Interpreter.partialText, hfound]
      split
      · exact .empty_append (ih hmeets.rest hpace)
      · exact .inl ⟨_, kept, rfl, hexcused name⟩
    | @inlined _ _ name _ _ _ _ found _ _ _ _ _ _ _ _ hpartial hparse _ _ ihb ih =>
      intro hmeets m c kept hpace
      obtain rfl := hown hmeets
      have hfound : i.partialTree name = .ok (some found) := by
        simp only [Interpreter.partialTree, ← hsource, hpartial, hparse, Except.map]
      refine .cons (hr.inlined hfound (fun hdepth => ?_) _ _) fun _ _ _ => ih hmeets.rest hpace
      rcases hpace with hlimit | hample
      · cases m with
        | zero => exact .inl ⟨_, kept, rfl, hlimit⟩
        | succ m => exact ihb (.ofPartial hmeets hfound) (.inl hlimit)
      · obtain ⟨m', rfl, hample'⟩ := hample.inline hdepth
        exact ihb (.ofPartial hmeets hfound) (.inr hample')

/-! ## Renderings -/

section Renderings

variable {e : Engine} {host : Host η} {files : Files}

/-- Partials compiled in or not, a source renders to what it means, if it renders to a text. -/
theorem Engine.renderInContext_agrees {Excused : Error → Prop} {limit : Nat} {source : String}
    (hexcused : ∀ name, Excused (.partialRecursion name maxPartialDepth))
    (hlimit : Excused .expansionLimit ∨ 1 + maxPartialDepth + host.stack + maxPartialDepth ≤ limit)
    (hown : ∀ tree, e.tokens source = .ok tree →
      (e.interpreter host files).OwnDelimiters tree) (c : Context) (kept : η) :
    Agrees Excused (Uncached files) (e.renderInContext host source)
      (e.meaningTo host files limit source c) c kept := by
  refine (compile_realizes (.inr fun _ => trivial) source).bind ?_
  rintro shared tree kept' htree ⟨ops, dependencies, hops, hshared⟩
  rw [hshared]
  have hpace : Excused .expansionLimit ∨ Ample (1 + maxPartialDepth + host.stack) limit c :=
    hlimit.imp_right fun h => ⟨by omega, by omega⟩
  refine agrees_enter hpace fun n m _ hpace' => ?_
  exact hops.agrees (e.follows host files) rfl hexcused (hown tree (congrArg Prod.fst htree)) n
    .start hpace'

end Renderings

/-- Partials are read with the delimiters of the engine, in every mode of the cache. Looked up, they
always are: a source renders to what it means. Compiled in, they are where partial tags stand only
in texts that are read with these delimiters. There a source that renders to a text means this text,
lambdas included, unless it means that too many partials are open; and if it renders to a text both
ways, the two are the same. -/
theorem renderInContext_agree (e : Engine) (host : Host η) (base : Files) (source : String)
    (hown : ∀ tree, e.tokens source = .ok tree → (e.interpreter host base).OwnDelimiters tree)
    (c : Context) (kept : η) {storeOff storeOn : Store}
    (hoff : (e.inlining false).Serves host base kept (.renderInContext source c) storeOff)
    (hon : (e.inlining true).Serves host base kept (.renderInContext source c) storeOn) :
    let off := ((e.inlining false).renderInContext host source ⟨c, kept, storeOff⟩).1
    let on := ((e.inlining true).renderInContext host source ⟨c, kept, storeOn⟩).1
    let limit := 1 + maxPartialDepth + host.stack
    let meant (limit : Nat) := (e.meaningTo host base limit source c kept).1
    off = meant limit ∧
    (∀ text, on = .ok text → meant (limit + maxPartialDepth) = .ok text ∨
      ∃ name, meant (limit + maxPartialDepth) = .error (.partialRecursion name maxPartialDepth)) ∧
    ∀ text text', on = .ok text → off = .ok text' → text = text' := by
  intro off on limit meant
  have hplain := Uncached.plain base
  have hmeant : off = meant limit := by
    obtain ⟨store', h⟩ := (e.inlining false).renderInContext_eq host rfl source c kept hplain
    exact hoff.renderInContext_eq.trans (congrArg Prod.fst h)
  have hon' := hon.renderInContext_eq
  refine ⟨hmeant, fun text htext => ?_, fun text text' htext htext' => ?_⟩
  · have hagrees : Agrees (fun error => ∃ name, error = .partialRecursion name maxPartialDepth)
        (Uncached base) ((e.inlining true).renderInContext host source)
        (e.meaningTo host base (limit + maxPartialDepth) source c) c kept :=
      Engine.renderInContext_agrees (e := e.inlining true) (fun name => ⟨name, rfl⟩)
        (.inr (Nat.le_refl _)) hown c kept
    obtain ⟨error, hmeaning, name, rfl⟩ | hsame :=
      hagrees.eq_or_of_ok hplain (hon'.symm.trans htext)
    · exact .inr ⟨name, hmeaning⟩
    · exact .inl hsame
  · have hagrees : Agrees (fun _ => True) (Uncached base)
        ((e.inlining true).renderInContext host source)
        (e.meaningTo host base limit source c) c kept :=
      Engine.renderInContext_agrees (e := e.inlining true) (fun _ => trivial) (.inl trivial) hown c
        kept
    exact hagrees.eq_of_ok hplain (hon'.symm.trans htext) (hmeant.symm.trans htext')

/-- A lambda that returns a text with a partial, as a section and as a variable, and leaves lines in
a journal: looked up without a cache, and compiled in with a cache that knows the text. -/
theorem renderInContext_agree_lambda :
    let e : Engine := ⟨{ persistCache := false }, [("p", "{{x}}")]⟩
    let script : Script := ⟨[⟨.sequence [.text "<{{>p}}>"], some "f"⟩], []⟩
    let source := "{{#f}}{{/f}}{{f}}"
    let storeOn : Store := ⟨.ofMode .memory, .empty⟩
    let c := Context.ofValue (.map [("f", .lambda ⟨0⟩), ("x", .text "X")])
    let on := ((e.inlining true).renderInContext script.host source ⟨c, .empty, storeOn⟩).1
    let off := ((e.inlining false).renderInContext script.host source ⟨c, .empty, .plain .empty⟩).1
    (∀ tree, e.tokens source = .ok tree → (e.interpreter script.host .empty).OwnDelimiters tree) ∧
    ∃ s s', on = .ok s ∧ off = .ok s' ∧ s = s' := by
  intro e script source storeOn c on off
  have hpartials : ∀ name text, e.partialSource .empty name = .ok (some text) →
      Unswitched text := by
    intro name text h
    rw [Engine.partialSource] at h
    split at h
    · rename_i hregistered
      cases h
      cases List.mem_singleton.1 (Engine.mem_of_registered hregistered)
      decide +kernel
    · have hfile : ∀ path, Files.empty.isFile path = false :=
        Files.isFile_eq_false (by rintro _ ⟨⟩)
      dsimp only at h
      rw [hfile] at h
      cases h
  have hown : ∀ tree, e.tokens source = .ok tree →
      (e.interpreter script.host .empty).OwnDelimiters tree := by
    intro tree
    have hsource : Unswitched source := by decide +kernel
    refine Engine.ownDelimiters_of_unswitched rfl hsource hpartials (Script.returns ?_)
    intro scripted hmem
    cases List.mem_singleton.1 hmem
    refine ⟨_, rfl, fun text htext => ?_⟩
    cases List.mem_singleton.1 htext
    decide +kernel
  let w : World := ⟨["cache"], [source, "{{x}}", "<{{>p}}>"], fun _ => True, [.empty]⟩
  have hw : w.Distinct := World.distinct_of_held (by decide +kernel) (by decide +kernel)
  have hfits : (e.inlining true).Fits w := by
    refine .of_memory rfl (Options.avoids_templateFile ?_ ?_ ?_ ?_) ?_ fun _ => trivial
    all_goals decide
  have hbacked : (e.inlining true).Backed .empty (.world w) storeOn :=
    .fresh hw (List.mem_singleton_self _) hfits (by decide +kernel)
  have hknown : (Backing.world w).Knows source := List.mem_cons_self
  have hlog : ∀ text ∈ ((e.inlining true).answer script.host.logging (.renderInContext source c)
      (.empty, []) (.plain .empty)).2.1.2, text ∈ w.texts := by decide +kernel
  have hon : (e.inlining true).Serves script.host .empty .empty (.renderInContext source c)
      storeOn := ⟨_, hbacked, hknown, Engine.not_strays_of_known hlog⟩
  obtain ⟨s, hs, -⟩ : ∃ s, on = .ok s ∧ s = "<X>&lt;X&gt;" := exists_ok_of_check (by decide +kernel)
  obtain ⟨s', hs', -⟩ : ∃ s, off = .ok s ∧ s = "<X>&lt;X&gt;" :=
    exists_ok_of_check (by decide +kernel)
  have hagree := renderInContext_agree e script.host .empty source hown c .empty
    (.uncached (.plain .empty)) hon
  exact ⟨hown, s, s', hs, hs', hagree.2.2 s s' hs hs'⟩

/-- A lambda that returns its section, with a partial in it, where other delimiters are in force:
compiled into the text, the partial is read with these, and its tag is not one. -/
theorem renderInContext_disagree :
    let e : Engine := ⟨{}, [("p", "{{x}}")]⟩
    let host : Host Unit := { Host.empty with call := fun _ raw kept => (.text raw, kept) }
    let source := "{{=<% %>=}}<%#f%><%>p%><%/f%>"
    let store : Store := ⟨.ofMode .disabled, .empty⟩
    let c := Context.ofValue (.map [("f", .lambda ⟨0⟩), ("x", .text "X")])
    let on := ((e.inlining true).renderInContext host source ⟨c, (), store⟩).1
    let off := ((e.inlining false).renderInContext host source ⟨c, (), store⟩).1
    on.toOption = some "{{x}}" ∧ off.toOption = some "X" := by
  decide +kernel

end Mustache
