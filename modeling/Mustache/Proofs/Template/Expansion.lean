import Mustache.Template.Compile

/-!
# Mustache.Proofs.Template.Expansion

Compiling a tree with its partials compiled into it, as a relation.

`Expands partials delimiters left enclosing nodes known ops known'`: inside the partials
`enclosing`, with room for `left` more, the nodes become the instructions `ops`, and the partials
recorded grow from `known` to `known'`. `lowerAll_eq_ok_iff` says that this is what
`Node.lowerAll` computes where it succeeds, so that proofs go by induction on the derivation,
through all partials at once; `expands_total` says when it succeeds.
-/

namespace Mustache

open Node

def Op.ofBlock (path : String) (inverted : Bool) (body : List Op) (raw : String)
    (delimiters : Delimiters) : Op :=
  if inverted then .inverted (.ofString path) body
  else .block (.ofString path) body raw delimiters

theorem Op.ofBlock_append (path : String) (inverted : Bool) (body : List Op) (raw : String)
    (delimiters : Delimiters) (ops : List Op) :
    Op.append [Op.ofBlock path inverted body raw delimiters] ops =
      Op.ofBlock path inverted body raw delimiters :: ops := by
  cases inverted <;> rfl

inductive Expands (partials : PartialSources) (delimiters : Delimiters) :
    Nat → List String → List Node → List Dependency → List Op → List Dependency → Prop where
  | nil {left enclosing known} : Expands partials delimiters left enclosing [] known [] known
  | text {left enclosing s nodes known ops known'} :
      Expands partials delimiters left enclosing nodes known ops known' →
      Expands partials delimiters left enclosing (.text s :: nodes) known
        (Op.append [.text s] ops) known'
  | comment {left enclosing s span nodes known ops known'} :
      Expands partials delimiters left enclosing nodes known ops known' →
      Expands partials delimiters left enclosing (.comment s span :: nodes) known ops known'
  | interpolation {left enclosing path escaped span nodes known ops known'} :
      Expands partials delimiters left enclosing nodes known ops known' →
      Expands partials delimiters left enclosing (.interpolation path escaped span :: nodes) known
        (.interpolation (.ofString path) escaped :: ops) known'
  | block {left enclosing path inverted children raw pair opening closing nodes known body known₁
      ops known₂} :
      Expands partials delimiters left enclosing children known body known₁ →
      Expands partials delimiters left enclosing nodes known₁ ops known₂ →
      Expands partials delimiters left enclosing
        (.block path inverted children raw pair opening closing :: nodes) known
        (Op.ofBlock path inverted body raw pair :: ops) known₂
  /-- Inside itself, and where no more may be opened, a partial stays a reference. -/
  | reference {left enclosing name indent span nodes known ops known'} :
      left = 0 ∨ name ∈ enclosing →
      Expands partials delimiters left enclosing nodes known ops known' →
      Expands partials delimiters left enclosing (.partialTag name indent span :: nodes) known
        (.partialRef name indent :: ops) known'
  | missing {left enclosing name indent span nodes known known₁ ops known₂} :
      name ∉ enclosing → recordVersion partials name known = .ok known₁ →
      partials.source name = .ok none →
      Expands partials delimiters (left + 1) enclosing nodes known₁ ops known₂ →
      Expands partials delimiters (left + 1) enclosing (.partialTag name indent span :: nodes)
        known ops known₂
  | inlined {left enclosing name indent span nodes source tree known known₁ body known₂ ops
      known₃} :
      name ∉ enclosing → recordVersion partials name known = .ok known₁ →
      partials.source name = .ok (some source) →
      Tree.parse source.toList delimiters = .ok tree →
      Expands partials delimiters left (name :: enclosing) tree known₁ body known₂ →
      Expands partials delimiters (left + 1) enclosing nodes known₂ ops known₃ →
      Expands partials delimiters (left + 1) enclosing (.partialTag name indent span :: nodes)
        known (.inlined name indent body :: ops) known₃

/-! ## The relation and the function -/

section Lowering

variable {onPartial : Lowering} {nodes : List Node} {known known' : List Dependency}
  {ops : List Op}

theorem lowerAll_cons_eq_ok_iff {node : Node} :
    lowerAll onPartial (node :: nodes) known = .ok (ops, known') ↔
      ∃ first known₁ more, lower onPartial node known = .ok (first, known₁) ∧
        lowerAll onPartial nodes known₁ = .ok (more, known') ∧ ops = Op.append first more := by
  rw [lowerAll]
  constructor
  · intro h
    split at h
    · cases h
    · rename_i first known₁ hfirst
      split at h
      · cases h
      · rename_i more known₂ hmore
        cases h
        exact ⟨first, known₁, more, hfirst, hmore, rfl⟩
  · rintro ⟨first, known₁, more, hfirst, hmore, rfl⟩
    simp [hfirst, hmore]

theorem lower_block_eq_ok_iff {path raw : String} {inverted : Bool} {children : List Node}
    {pair : Delimiters} {opening closing : Span} :
    lower onPartial (.block path inverted children raw pair opening closing) known
        = .ok (ops, known') ↔
      ∃ body, lowerAll onPartial children known = .ok (body, known') ∧
        ops = [Op.ofBlock path inverted body raw pair] := by
  rw [lower]
  constructor
  · intro h
    split at h
    · cases h
    · rename_i body known₁ hbody
      refine ⟨body, ?_⟩
      cases inverted <;> cases h <;> exact ⟨hbody, rfl⟩
  · rintro ⟨body, hbody, rfl⟩
    cases inverted <;> simp [hbody, Op.ofBlock]

end Lowering

section Relation

variable {partials : PartialSources} {delimiters : Delimiters}

theorem lowerInlined_succ_eq_ok_iff {left : Nat} {enclosing : List String} {name indent : String}
    {known known' : List Dependency} {ops : List Op} (hname : name ∉ enclosing) :
    lowerInlined partials delimiters (left + 1) enclosing name indent known
        = .ok (ops, known') ↔
      ∃ known₁, recordVersion partials name known = .ok known₁ ∧
        ((partials.source name = .ok none ∧ ops = [] ∧ known' = known₁) ∨
          ∃ source tree body, partials.source name = .ok (some source) ∧
            Tree.parse source.toList delimiters = .ok tree ∧
            lowerAll (lowerInlined partials delimiters left (name :: enclosing)) tree known₁
              = .ok (body, known') ∧ ops = [.inlined name indent body]) := by
  simp only [lowerInlined]
  rw [if_neg (by simpa using hname)]
  constructor
  · intro h
    split at h
    · cases h
    · rename_i known₁ hrecord
      refine ⟨known₁, hrecord, ?_⟩
      split at h
      · cases h
      · rename_i hsource
        cases h
        exact .inl ⟨hsource, rfl, rfl⟩
      · rename_i source hsource
        split at h
        · cases h
        · rename_i tree htree
          split at h
          · cases h
          · rename_i body known₂ hbody
            cases h
            exact .inr ⟨source, tree, body, hsource, htree, hbody, rfl⟩
  · rintro ⟨known₁, hrecord, ⟨hsource, rfl, rfl⟩ | ⟨source, tree, body, hsource, htree, hbody, rfl⟩⟩
    · simp [hrecord, hsource]
    · simp [hrecord, hsource, htree, hbody]

theorem lowerInlined_reference {left : Nat} {enclosing : List String} {name : String}
    (h : left = 0 ∨ name ∈ enclosing) (indent : String) (known : List Dependency) :
    lowerInlined partials delimiters left enclosing name indent known
      = .ok ([.partialRef name indent], known) := by
  cases left with
  | zero => rfl
  | succ left =>
    have hname : name ∈ enclosing := by simpa using h
    simp only [lowerInlined]
    rw [if_pos (by simpa using hname)]
    rfl

theorem stays_or_opens (left : Nat) (enclosing : List String) (name : String) :
    (left = 0 ∨ name ∈ enclosing) ∨ ∃ n, left = n + 1 ∧ name ∉ enclosing := by
  by_cases h : left = 0 ∨ name ∈ enclosing
  · exact .inl h
  · rw [not_or] at h
    exact .inr ⟨left - 1, by omega, h.2⟩

theorem expands_of_lowerAll (left : Nat) : ∀ (enclosing : List String) (nodes : List Node)
    (known : List Dependency) (ops : List Op) (known' : List Dependency),
    lowerAll (lowerInlined partials delimiters left enclosing) nodes known = .ok (ops, known') →
      Expands partials delimiters left enclosing nodes known ops known' := by
  -- The outer induction goes into the trees of partials, the inner one into sections.
  induction left using Nat.strongRecOn with
  | ind left ihl =>
    intro enclosing nodes
    induction nodes using forestInduction with
    | nil =>
      intro known ops known' h
      rw [lowerAll] at h
      cases h
      exact .nil
    | text s nodes ih =>
      intro known ops known' h
      obtain ⟨first, known₁, more, hfirst, hmore, rfl⟩ := lowerAll_cons_eq_ok_iff.1 h
      rw [lower] at hfirst
      cases hfirst
      exact .text (ih _ _ _ hmore)
    | interpolation path escaped span nodes ih =>
      intro known ops known' h
      obtain ⟨first, known₁, more, hfirst, hmore, rfl⟩ := lowerAll_cons_eq_ok_iff.1 h
      rw [lower] at hfirst
      cases hfirst
      exact .interpolation (ih _ _ _ hmore)
    | block path inverted children raw pair opening closing nodes ihc ih =>
      intro known ops known' h
      obtain ⟨first, known₁, more, hfirst, hmore, rfl⟩ := lowerAll_cons_eq_ok_iff.1 h
      obtain ⟨body, hbody, rfl⟩ := lower_block_eq_ok_iff.1 hfirst
      rw [Op.ofBlock_append]
      exact .block (ihc _ _ _ hbody) (ih _ _ _ hmore)
    | partialTag name indent span nodes ih =>
      intro known ops known' h
      obtain ⟨first, known₁, more, hfirst, hmore, rfl⟩ := lowerAll_cons_eq_ok_iff.1 h
      rw [lower] at hfirst
      rcases stays_or_opens left enclosing name with hr | ⟨left, rfl, hname⟩
      · rw [lowerInlined_reference hr] at hfirst
        cases hfirst
        exact .reference hr (ih _ _ _ hmore)
      · obtain ⟨known₂, hrecord, hopened⟩ := (lowerInlined_succ_eq_ok_iff hname).1 hfirst
        rcases hopened with ⟨hsource, rfl, rfl⟩ | ⟨source, tree, body, hsource, htree, hbody, rfl⟩
        · exact .missing hname hrecord hsource (ih _ _ _ hmore)
        · exact .inlined hname hrecord hsource htree (ihl left (by omega) _ _ _ _ _ hbody)
            (ih _ _ _ hmore)
    | comment s span nodes ih =>
      intro known ops known' h
      obtain ⟨first, known₁, more, hfirst, hmore, rfl⟩ := lowerAll_cons_eq_ok_iff.1 h
      rw [lower] at hfirst
      cases hfirst
      exact .comment (ih _ _ _ hmore)

theorem Expands.lowerAll_eq {left : Nat} {enclosing : List String} {nodes : List Node}
    {known known' : List Dependency} {ops : List Op}
    (h : Expands partials delimiters left enclosing nodes known ops known') :
    lowerAll (lowerInlined partials delimiters left enclosing) nodes known = .ok (ops, known') := by
  induction h with
  | nil => rw [lowerAll]
  | text _ ih => exact lowerAll_cons_eq_ok_iff.2 ⟨_, _, _, by rw [lower], ih, rfl⟩
  | comment _ ih => exact lowerAll_cons_eq_ok_iff.2 ⟨_, _, _, by rw [lower], ih, rfl⟩
  | interpolation _ ih => exact lowerAll_cons_eq_ok_iff.2 ⟨_, _, _, by rw [lower], ih, rfl⟩
  | block _ _ ihc ih =>
    exact lowerAll_cons_eq_ok_iff.2
      ⟨_, _, _, lower_block_eq_ok_iff.2 ⟨_, ihc, rfl⟩, ih, (Op.ofBlock_append ..).symm⟩
  | reference hr _ ih =>
    exact lowerAll_cons_eq_ok_iff.2
      ⟨_, _, _, by rw [lower]; exact lowerInlined_reference hr _ _, ih, rfl⟩
  | missing hname hrecord hsource _ ih =>
    refine lowerAll_cons_eq_ok_iff.2 ⟨[], _, _, ?_, ih, rfl⟩
    rw [lower]
    exact (lowerInlined_succ_eq_ok_iff hname).2 ⟨_, hrecord, .inl ⟨hsource, rfl, rfl⟩⟩
  | @inlined _ _ name indent _ _ _ _ _ _ body _ _ _ hname hrecord hsource htree _ _ ihb ih =>
    refine lowerAll_cons_eq_ok_iff.2 ⟨[.inlined name indent body], _, _, ?_, ih, rfl⟩
    rw [lower]
    exact (lowerInlined_succ_eq_ok_iff hname).2
      ⟨_, hrecord, .inr ⟨_, _, _, hsource, htree, ihb, rfl⟩⟩

/-- The relation is the graph of the function. -/
theorem lowerAll_eq_ok_iff {left : Nat} {enclosing : List String} {nodes : List Node}
    {known known' : List Dependency} {ops : List Op} :
    lowerAll (lowerInlined partials delimiters left enclosing) nodes known = .ok (ops, known') ↔
      Expands partials delimiters left enclosing nodes known ops known' :=
  ⟨expands_of_lowerAll _ _ _ _ _ _, Expands.lowerAll_eq⟩

/-- Nothing fails that compiling needs to know of the partials: each has a version, and either
does not exist or has a source that is a template. -/
def PartialSources.Complete (partials : PartialSources) (delimiters : Delimiters) : Prop :=
  ∀ name, (∃ version, partials.version name = .ok version) ∧
    (partials.source name = .ok Option.none ∨
      ∃ source tree, partials.source name = .ok (some source) ∧
        Tree.parse source.toList delimiters = .ok tree)

theorem exists_recordVersion {name : String} {version : Option SourceVersion}
    (h : partials.version name = .ok version) (known : List Dependency) :
    ∃ known', recordVersion partials name known = .ok known' := by
  rw [recordVersion, h]
  split
  · exact ⟨_, rfl⟩
  · exact ⟨_, rfl⟩

/-- Compiling succeeds where it opens no partials, or none that fails. -/
theorem expands_total (partials : PartialSources) (delimiters : Delimiters) (left : Nat)
    (h : left = 0 ∨ partials.Complete delimiters) :
    ∀ (enclosing : List String) (nodes : List Node) (known : List Dependency),
      ∃ ops known', Expands partials delimiters left enclosing nodes known ops known' := by
  induction left using Nat.strongRecOn with
  | ind left ihl =>
    intro enclosing nodes
    induction nodes using forestInduction with
    | nil => exact fun known => ⟨[], known, .nil⟩
    | text s nodes ih =>
      intro known
      obtain ⟨ops, known', hops⟩ := ih known
      exact ⟨_, known', .text hops⟩
    | interpolation path escaped span nodes ih =>
      intro known
      obtain ⟨ops, known', hops⟩ := ih known
      exact ⟨_, known', .interpolation hops⟩
    | block path inverted children raw pair opening closing nodes ihc ih =>
      intro known
      obtain ⟨body, known₁, hbody⟩ := ihc known
      obtain ⟨ops, known₂, hops⟩ := ih known₁
      exact ⟨_, known₂, .block hbody hops⟩
    | partialTag name indent span nodes ih =>
      intro known
      rcases stays_or_opens left enclosing name with hr | ⟨left, rfl, hname⟩
      · obtain ⟨ops, known', hops⟩ := ih known
        exact ⟨_, known', .reference hr hops⟩
      · have hcomplete := h.resolve_left (by omega)
        obtain ⟨⟨version, hversion⟩, hsource⟩ := hcomplete name
        obtain ⟨known₁, hrecord⟩ := exists_recordVersion hversion known
        rcases hsource with hsource | ⟨source, tree, hsource, htree⟩
        · obtain ⟨ops, known₂, hops⟩ := ih known₁
          exact ⟨ops, known₂, .missing hname hrecord hsource hops⟩
        · obtain ⟨body, known₂, hbody⟩ :=
            ihl left (by omega) (.inr hcomplete) (name :: enclosing) tree known₁
          obtain ⟨ops, known₃, hops⟩ := ih known₂
          exact ⟨_, known₃, .inlined hname hrecord hsource htree hbody hops⟩
    | comment s span nodes ih =>
      intro known
      obtain ⟨ops, known', hops⟩ := ih known
      exact ⟨_, known', .comment hops⟩

/-- How many partials may be opened while a source is compiled. -/
def CompilerOptions.room (o : CompilerOptions) : Nat :=
  if o.includePartialCode then maxPartialDepth else 0

/-- Without partials in the code all tags stay references, as they do where there is no room. -/
theorem lowerInlined_room (options : CompilerOptions) :
    (if options.includePartialCode then lowerInlined partials delimiters maxPartialDepth []
      else lowerReference) = lowerInlined partials delimiters options.room [] := by
  rw [CompilerOptions.room]
  split <;> rfl

theorem compile_eq_ok_iff {tree : Tree} {options : CompilerOptions} {t : Template} :
    tree.compile delimiters options partials = .ok t ↔
      ∃ ops dependencies, Expands partials delimiters options.room [] tree [] ops dependencies ∧
        t = ⟨options, ops, dependencies⟩ := by
  simp only [Tree.compile, lowerInlined_room, ← lowerAll_eq_ok_iff]
  constructor
  · intro h
    split at h
    · cases h
    · rename_i ops dependencies hops
      cases h
      exact ⟨ops, dependencies, hops, rfl⟩
  · rintro ⟨ops, dependencies, hops, rfl⟩
    rw [hops]

theorem ofSource_eq_ok_iff {source : String} {options : CompilerOptions} {t : Template} :
    Template.ofSource source delimiters options partials = .ok t ↔
      ∃ tree ops dependencies, Tree.parse source.toList delimiters = .ok tree ∧
        Expands partials delimiters options.room [] tree [] ops dependencies ∧
        t = ⟨options, ops, dependencies⟩ := by
  rw [Template.ofSource]
  cases htree : Tree.parse source.toList delimiters with
  | error e => simp
  | ok tree => simp [compile_eq_ok_iff]

end Relation

/-- A result that is found by evaluation, and what evaluation says of it. -/
theorem exists_ok_of_check {ε α : Type} {x : Except ε α} {p : α → Prop} [DecidablePred p]
    (h : (match x with
      | .ok a => decide (p a)
      | .error _ => false) = true) : ∃ a, x = .ok a ∧ p a := by
  cases x with
  | error e => cases h
  | ok a => exact ⟨a, rfl, of_decide_eq_true h⟩

end Mustache
