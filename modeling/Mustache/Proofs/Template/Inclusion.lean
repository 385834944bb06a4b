import Mustache.Proofs.Template.Staleness

/-!
# Mustache.Proofs.Template.Inclusion

How compiling partials into a template fails.

A template `Includes` the partials that its tags name, and those that these include in turn, each so
many levels deep. Compiling opens all that are at most as deep as there is room
(`Includes.consults`): one that is met again inside of itself stays a reference there, but has been
opened where it was met first. So compiling a source that parses fails just where one of these
partials does, and as one of them does (`ofSource_of_parse`, `exists_error_of_blames`).
-/

namespace Mustache

open Node

/-- Tags with the names `tags` include a partial, at most `levels` partials deep. -/
inductive Includes (partials : PartialSources) (delimiters : Delimiters) :
    Nat → List String → String → Prop where
  | tag {levels tags name} : name ∈ tags → Includes partials delimiters (levels + 1) tags name
  | inside {levels tags outer source tree name} : outer ∈ tags →
      partials.source outer = .ok (some source) → Tree.parse source.toList delimiters = .ok tree →
      Includes partials delimiters levels (partialNamesAll tree) name →
      Includes partials delimiters (levels + 1) tags name

/-- Compiling the partial in fails so, whatever is in it. -/
inductive PartialSources.Fails (partials : PartialSources) (delimiters : Delimiters)
    (name : String) : Error → Prop where
  | version {error} : partials.version name = .error error → Fails partials delimiters name error
  | source {error} : partials.source name = .error error → Fails partials delimiters name error
  | parse {source error} : partials.source name = .ok (some source) →
      Tree.parse source.toList delimiters = .error error → Fails partials delimiters name error

/-- A partial that the tags include at most `levels` deep fails so. -/
def PartialSources.Blames (partials : PartialSources) (delimiters : Delimiters) (levels : Nat)
    (tags : List String) (error : Error) : Prop :=
  ∃ name, Includes partials delimiters levels tags name ∧ partials.Fails delimiters name error

variable {partials : PartialSources} {delimiters : Delimiters} {error : Error}

/-! ## What is included -/

section Includes

variable {levels : Nat} {tags : List String} {name : String}

theorem Includes.mono (h : Includes partials delimiters levels tags name) :
    ∀ {more}, levels ≤ more → Includes partials delimiters more tags name := by
  induction h with
  | tag hmem =>
    intro more hle
    obtain ⟨more, rfl⟩ := Nat.exists_eq_add_of_le' (Nat.le_trans (Nat.le_add_left 1 _) hle)
    exact .tag hmem
  | inside hmem hsource htree _ ih =>
    intro more hle
    obtain ⟨more, rfl⟩ := Nat.exists_eq_add_of_le' (Nat.le_trans (Nat.le_add_left 1 _) hle)
    exact .inside hmem hsource htree (ih (Nat.le_of_succ_le_succ hle))

theorem Includes.through {more : Nat} {outer source : String} {tree : Tree}
    (h : Includes partials delimiters levels tags outer)
    (hsource : partials.source outer = .ok (some source))
    (htree : Tree.parse source.toList delimiters = .ok tree)
    (hname : Includes partials delimiters more (partialNamesAll tree) name) :
    Includes partials delimiters (levels + more) tags name := by
  induction h with
  | tag hmem => exact (Includes.inside hmem hsource htree hname).mono (by omega)
  | inside hmem hsource' htree' _ ih =>
    exact (Includes.inside hmem hsource' htree' (ih hsource)).mono (by omega)

theorem Consults.includes {left : Nat} {enclosing : List String}
    (h : Consults partials delimiters left enclosing tags name) :
    Includes partials delimiters left tags name := by
  induction h with
  | tag hmem _ => exact .tag hmem
  | inside hmem _ hsource htree _ ih => exact .inside hmem hsource htree ih

theorem Consults.mono {left : Nat} {enclosing : List String}
    (h : Consults partials delimiters left enclosing tags name) :
    ∀ {more}, left ≤ more → Consults partials delimiters more enclosing tags name := by
  induction h with
  | tag hmem hopens =>
    intro more hle
    obtain ⟨more, rfl⟩ := Nat.exists_eq_add_of_le' (Nat.le_trans (Nat.le_add_left 1 _) hle)
    exact .tag hmem hopens
  | inside hmem hopens hsource htree _ ih =>
    intro more hle
    obtain ⟨more, rfl⟩ := Nat.exists_eq_add_of_le' (Nat.le_trans (Nat.le_add_left 1 _) hle)
    exact .inside hmem hopens hsource htree (ih (Nat.le_of_succ_le_succ hle))

theorem Includes.subset {more : List String} (h : Includes partials delimiters levels tags name)
    (hsubset : tags ⊆ more) : Includes partials delimiters levels more name := by
  cases h with
  | tag hmem => exact .tag (hsubset hmem)
  | inside hmem hsource htree h => exact .inside (hsubset hmem) hsource htree h

/-- What is included is consulted, unless a partial around it leads there as fast. -/
theorem Includes.consults_inside (levels : Nat) : ∀ {enclosing tags},
    Includes partials delimiters levels tags name →
      (∀ outer ∈ enclosing, ¬ Includes partials delimiters levels [outer] name) →
        Consults partials delimiters levels enclosing tags name := by
  induction levels with
  | zero =>
    intro enclosing tags h
    cases h
  | succ levels ih =>
    intro enclosing tags h hfar
    have hfarther : ∀ outer ∈ enclosing, ¬ Includes partials delimiters levels [outer] name :=
      fun outer hmem hnear => hfar outer hmem (hnear.mono (Nat.le_succ levels))
    by_cases hnearer : Includes partials delimiters levels tags name
    · exact (ih hnearer hfarther).mono (Nat.le_succ levels)
    -- now the partial that is opened first does not lead there any faster itself
    cases h with
    | tag hmem =>
      exact .tag hmem fun hname => hfar name hname (.tag (List.mem_singleton_self name))
    | @inside _ _ outer _ _ _ hmem hsource htree h =>
      have hopens : outer ∉ enclosing := fun houter =>
        hfar outer houter (.inside (List.mem_singleton_self outer) hsource htree h)
      have houter : ¬ Includes partials delimiters levels [outer] name := fun hnear =>
        hnearer (hnear.subset (by simpa using hmem))
      exact .inside hmem hopens hsource htree
        (ih h (List.forall_mem_cons.2 ⟨houter, hfarther⟩))

/-- As deep as there is room, all that is included is consulted. -/
theorem Includes.consults (h : Includes partials delimiters levels tags name) :
    Consults partials delimiters levels [] tags name :=
  Includes.consults_inside levels h (List.forall_mem_nil _)

end Includes

/-! ## How compiling fails -/

theorem exists_of_lowerAll_error {onPartial : Lowering} {nodes : List Node} :
    ∀ known, lowerAll onPartial nodes known = .error error →
      ∃ name ∈ partialNamesAll nodes, ∃ indent known',
        onPartial name indent known' = .error error := by
  have hcons : ∀ {node nodes},
      (∀ known, lower onPartial node known = .error error → ∃ name ∈ partialNames node,
        ∃ indent known', onPartial name indent known' = .error error) →
      (∀ known, lowerAll onPartial nodes known = .error error →
        ∃ name ∈ partialNamesAll nodes, ∃ indent known',
          onPartial name indent known' = .error error) →
      ∀ known, lowerAll onPartial (node :: nodes) known = .error error →
        ∃ name ∈ partialNamesAll (node :: nodes), ∃ indent known',
          onPartial name indent known' = .error error := by
    intro node nodes hnode hnodes known h
    simp only [partialNamesAll, List.mem_append, or_and_right, exists_or]
    rw [lowerAll] at h
    split at h
    · rename_i hfirst
      cases h
      exact .inl (hnode known hfirst)
    · split at h
      · rename_i hrest
        cases h
        exact .inr (hnodes _ hrest)
      · cases h
  induction nodes using forestInduction with
  | nil => rintro _ ⟨⟩
  | block path inverted children raw pair opening closing nodes ihchildren ih =>
    refine hcons (fun known h => ?_) ih
    rw [lower] at h
    rw [partialNames]
    split at h
    · rename_i hchildren
      cases h
      exact ihchildren known hchildren
    · split at h <;> cases h
  | partialTag name indent span nodes ih =>
    refine hcons (fun known h => ⟨name, ?_, indent, known, by rwa [lower] at h⟩) ih
    rw [partialNames]
    exact List.mem_singleton_self name
  | _ => exact hcons (by rintro _ ⟨⟩) ‹_›

theorem fails_of_recordVersion {name : String} {known : List Dependency}
    (h : recordVersion partials name known = .error error) :
    partials.Fails delimiters name error := by
  rw [recordVersion] at h
  split at h
  · cases h
  · split at h
    · rename_i hversion
      cases h
      exact .version hversion
    · cases h

theorem exists_consulted_of_lowerAll (left : Nat) : ∀ {enclosing nodes known},
    lowerAll (lowerInlined partials delimiters left enclosing) nodes known = .error error →
      ∃ name, Consults partials delimiters left enclosing (partialNamesAll nodes) name ∧
        partials.Fails delimiters name error := by
  induction left with
  | zero =>
    intro enclosing nodes known h
    obtain ⟨_, _, _, _, ⟨⟩⟩ := exists_of_lowerAll_error _ h
  | succ left ih =>
    intro enclosing nodes known h
    obtain ⟨name, hname, indent, known', h⟩ := exists_of_lowerAll_error _ h
    simp only [lowerInlined] at h
    split at h
    · cases h
    rename_i hopens
    have hopens : name ∉ enclosing := by simpa using hopens
    split at h
    · rename_i hrecord
      cases h
      exact ⟨name, .tag hname hopens, fails_of_recordVersion hrecord⟩
    split at h
    · rename_i hsource
      cases h
      exact ⟨name, .tag hname hopens, .source hsource⟩
    · cases h
    rename_i source hsource
    split at h
    · rename_i hparse
      cases h
      exact ⟨name, .tag hname hopens, .parse hsource hparse⟩
    rename_i tree hparse
    split at h
    · rename_i hbody
      cases h
      obtain ⟨other, hother, hfails⟩ := ih hbody
      exact ⟨other, .inside hname hopens hsource hparse hother, hfails⟩
    · cases h

/-- Compiling fails where a partial does that the tags include. -/
theorem blames_of_lowerAll {left : Nat} {enclosing : List String} {nodes : List Node}
    {known : List Dependency}
    (h : lowerAll (lowerInlined partials delimiters left enclosing) nodes known = .error error) :
    partials.Blames delimiters left (partialNamesAll nodes) error := by
  obtain ⟨name, hconsults, hfails⟩ := exists_consulted_of_lowerAll left h
  exact ⟨name, hconsults.includes, hfails⟩

theorem Expands.not_fails {left : Nat} {tree : Tree} {ops : List Op} {known : List Dependency}
    {name : String} (h : Expands partials delimiters left [] tree [] ops known)
    (hconsults : Consults partials delimiters left [] (partialNamesAll tree) name) :
    ¬ partials.Fails delimiters name error := by
  rintro (hversion | hsource | ⟨hsource, hparse⟩)
  · obtain ⟨dependency, hmem, rfl⟩ := List.mem_map.1 (h.mem_names_iff.2 (.inr hconsults))
    obtain ⟨version, hfound, -⟩ := h.recorded (by simp [Recorded]) dependency hmem
    cases hversion.symm.trans hfound
  · obtain hfound | ⟨_, _, hfound, -⟩ := h.source_of_consults hconsults <;>
      cases hsource.symm.trans hfound
  · obtain hfound | ⟨_, _, hfound, hparse'⟩ := h.source_of_consults hconsults
    · cases hsource.symm.trans hfound
    · cases hsource.symm.trans hfound
      cases hparse.symm.trans hparse'

theorem PartialSources.Blames.inlines {options : CompilerOptions} {tags : List String}
    (h : partials.Blames delimiters options.room tags error) :
    options.includePartialCode = true := by
  by_contra hoff
  rw [CompilerOptions.room, if_neg hoff] at h
  obtain ⟨_, ⟨⟩, -⟩ := h

/-- A source that parses gives instructions for its tree, or a partial fails that it includes as
deep as there is room. -/
theorem ofSource_of_parse {source : String} {tree : Tree} (options : CompilerOptions)
    (partials : PartialSources) (htree : Tree.parse source.toList delimiters = .ok tree) :
    (∃ ops dependencies, Expands partials delimiters options.room [] tree [] ops dependencies ∧
      Template.ofSource source delimiters options partials = .ok ⟨options, ops, dependencies⟩) ∨
    ∃ error, partials.Blames delimiters options.room (partialNamesAll tree) error ∧
      Template.ofSource source delimiters options partials = .error error := by
  simp only [Template.ofSource, htree, Tree.compile, lowerInlined_room]
  cases h : lowerAll (lowerInlined partials delimiters options.room []) tree [] with
  | ok lowered => exact .inl ⟨lowered.1, lowered.2, lowerAll_eq_ok_iff.1 h, rfl⟩
  | error error => exact .inr ⟨error, blames_of_lowerAll h, rfl⟩

/-- Where one of these partials fails, there are no instructions. -/
theorem exists_error_of_blames {source : String} {tree : Tree} {options : CompilerOptions}
    (htree : Tree.parse source.toList delimiters = .ok tree)
    (hblames : partials.Blames delimiters options.room (partialNamesAll tree) error) :
    ∃ error, partials.Blames delimiters options.room (partialNamesAll tree) error ∧
      Template.ofSource source delimiters options partials = .error error := by
  obtain ⟨name, hname, hfails⟩ := hblames
  obtain ⟨ops, dependencies, hops, -⟩ | herror := ofSource_of_parse options partials htree
  · exact absurd hfails (hops.not_fails hname.consults)
  · exact herror

end Mustache
