import Mathlib.Data.List.Forall2
import Mustache.Proofs.Template.Expansion

/-!
# Mustache.Proofs.Template.Staleness

What a template records of its partials is enough to tell whether it is stale.

`Expands.transfer`: a derivation over one state of the partials is a derivation over any other
state in which all recorded partials have the versions that were recorded. So a template that is
current is what compiling gives now (`ofSource_of_isCurrent`). `Expands.mem_names_iff` says
which partials are recorded: those that compiling looks up (`Consults`), each once.
-/

namespace Mustache

open Node

/-! ## Two states of the partials -/

/-- Where a partial has equal versions in two states, it has the same source in both. -/
def PartialSources.Tells (before after : PartialSources) : Prop :=
  ∀ name v w, before.version name = .ok v → after.version name = .ok w → v == w →
    before.source name = after.source name

/-- The same record of a partial, versions being compared as `SourceVersion.same` has it. -/
def Dependency.Same (d d' : Dependency) : Prop := d.name = d'.name ∧ d.source == d'.source

/-- The same template, the versions of its partials being compared as `SourceVersion.same` has
it. -/
structure Template.Same (t t' : Template) : Prop where
  options : t.options = t'.options
  ops : t.ops = t'.ops
  dependencies : List.Forall₂ Dependency.Same t.dependencies t'.dependencies

/-- All that was recorded is what the partials are. -/
def Recorded (partials : PartialSources) (known : List Dependency) : Prop :=
  ∀ d ∈ known, ∃ v, partials.version d.name = .ok v ∧ v == d.source

theorem allCurrent_eq_true_iff {partials : PartialSources} {known : List Dependency} :
    Template.allCurrent partials known = .ok true ↔ Recorded partials known := by
  induction known with
  | nil => simp [Template.allCurrent, Recorded]
  | cons d known ih =>
    have hcons : Recorded partials (d :: known) ↔
        (∃ v, partials.version d.name = .ok v ∧ v == d.source) ∧ Recorded partials known := by
      simp [Recorded]
    rw [hcons, ← ih, Template.allCurrent]
    cases hv : partials.version d.name with
    | error e => simp
    | ok v => by_cases hd : (v == d.source) = true <;> simp [hd]

theorem recordVersion_eq_ok_iff {partials : PartialSources} {name : String}
    {known known' : List Dependency} :
    recordVersion partials name known = .ok known' ↔
      (name ∈ known.map (·.name) ∧ known' = known) ∨
        (name ∉ known.map (·.name) ∧
          ∃ v, partials.version name = .ok v ∧ known' = known ++ [⟨name, v⟩]) := by
  have hany : known.any (·.name == name) = true ↔ name ∈ known.map (·.name) := by
    simp [List.any_eq_true]
  rw [recordVersion]
  by_cases hname : name ∈ known.map (·.name)
  · rw [if_pos (hany.2 hname)]
    simp [hname, eq_comm]
  · rw [if_neg fun h => hname (hany.1 h)]
    cases hv : partials.version name with
    | error e => simp [hname]
    | ok v => simp [hname, eq_comm]

section Record

variable {partials : PartialSources} {delimiters : Delimiters} {left : Nat}
  {enclosing : List String} {nodes : List Node} {known known' : List Dependency} {ops : List Op}

theorem recordVersion_subset {name : String} (h : recordVersion partials name known = .ok known') :
    known ⊆ known' := by
  obtain ⟨-, rfl⟩ | ⟨-, v, -, rfl⟩ := recordVersion_eq_ok_iff.1 h
  · exact List.Subset.refl _
  · exact List.subset_append_left ..

theorem mem_names_of_recordVersion {name : String}
    (h : recordVersion partials name known = .ok known') (x : String) :
    x ∈ known'.map (·.name) ↔ x ∈ known.map (·.name) ∨ x = name := by
  obtain ⟨hname, rfl⟩ | ⟨-, v, -, rfl⟩ := recordVersion_eq_ok_iff.1 h
  · refine ⟨.inl, ?_⟩
    rintro (hx | rfl)
    · exact hx
    · exact hname
  · simp

theorem nodup_of_recordVersion {name : String}
    (h : recordVersion partials name known = .ok known') (hn : (known.map (·.name)).Nodup) :
    (known'.map (·.name)).Nodup := by
  obtain ⟨-, rfl⟩ | ⟨hname, v, -, rfl⟩ := recordVersion_eq_ok_iff.1 h
  · exact hn
  · rw [List.map_append]
    exact List.nodup_append.2 ⟨hn, by simp, fun x hx y hy hxy => hname (by simp_all)⟩

theorem Recorded.recordVersion {name : String} (hk : Recorded partials known)
    (h : recordVersion partials name known = .ok known') : Recorded partials known' := by
  obtain ⟨-, rfl⟩ | ⟨-, v, hv, rfl⟩ := recordVersion_eq_ok_iff.1 h
  · exact hk
  · intro d hd
    rcases List.mem_append.1 hd with hd | hd
    · exact hk d hd
    · obtain rfl : d = ⟨name, v⟩ := by simpa using hd
      exact ⟨v, hv, BEq.rfl⟩

theorem Expands.subset
    (h : Expands partials delimiters left enclosing nodes known ops known') : known ⊆ known' := by
  induction h with
  | nil => exact List.Subset.refl _
  | text _ ih | comment _ ih | interpolation _ ih | reference _ _ ih => exact ih
  | block _ _ ihc ih => exact List.Subset.trans ihc ih
  | missing _ hrecord _ _ ih => exact List.Subset.trans (recordVersion_subset hrecord) ih
  | inlined _ hrecord _ _ _ _ ihb ih =>
    exact List.Subset.trans (recordVersion_subset hrecord) (List.Subset.trans ihb ih)

theorem Expands.recorded
    (h : Expands partials delimiters left enclosing nodes known ops known')
    (hk : Recorded partials known) : Recorded partials known' := by
  induction h with
  | nil => exact hk
  | text _ ih | comment _ ih | interpolation _ ih | reference _ _ ih => exact ih hk
  | block _ _ ihc ih => exact ih (ihc hk)
  | missing _ hrecord _ _ ih => exact ih (hk.recordVersion hrecord)
  | inlined _ hrecord _ _ _ _ ihb ih => exact ih (ihb (hk.recordVersion hrecord))

theorem Expands.nodup_names
    (h : Expands partials delimiters left enclosing nodes known ops known')
    (hn : (known.map (·.name)).Nodup) : (known'.map (·.name)).Nodup := by
  induction h with
  | nil => exact hn
  | text _ ih | comment _ ih | interpolation _ ih | reference _ _ ih => exact ih hn
  | block _ _ ihc ih => exact ih (ihc hn)
  | missing _ hrecord _ _ ih => exact ih (nodup_of_recordVersion hrecord hn)
  | inlined _ hrecord _ _ _ _ ihb ih => exact ih (ihb (nodup_of_recordVersion hrecord hn))

end Record

/-! ## From one state to the other -/

section Transfer

variable {before after : PartialSources} {delimiters : Delimiters}

theorem names_eq_of_same {known known₂ : List Dependency}
    (h : List.Forall₂ Dependency.Same known₂ known) :
    known₂.map (·.name) = known.map (·.name) := by
  induction h with
  | nil => rfl
  | cons hd _ ih => simp [hd.1, ih]

/-- A partial whose record is current in the later state has the same source there, and is
recorded there as well. -/
theorem recordVersion_transfer (htells : before.Tells after) {name : String}
    {known known' known₂ final : List Dependency}
    (hrecord : recordVersion before name known = .ok known') (hk : Recorded before known)
    (hsub : known' ⊆ final) (hfinal : Recorded after final)
    (hsame : List.Forall₂ Dependency.Same known₂ known) :
    before.source name = after.source name ∧
      ∃ known₂', recordVersion after name known₂ = .ok known₂' ∧
        List.Forall₂ Dependency.Same known₂' known' := by
  obtain ⟨d, hd, hdn⟩ : ∃ d ∈ known', d.name = name := by
    simpa using (mem_names_of_recordVersion hrecord name).2 (.inr rfl)
  obtain ⟨v, hv, hvd⟩ := hk.recordVersion hrecord d hd
  obtain ⟨w, hw, hwd⟩ := hfinal d (hsub hd)
  rw [hdn] at hv hw
  refine ⟨htells name v w hv hw (BEq.trans hvd (BEq.symm hwd)), ?_⟩
  have hnames := names_eq_of_same hsame
  obtain ⟨hname, rfl⟩ | ⟨hname, u, hu, rfl⟩ := recordVersion_eq_ok_iff.1 hrecord
  · exact ⟨known₂, recordVersion_eq_ok_iff.2 (.inl ⟨hnames ▸ hname, rfl⟩), hsame⟩
  · refine ⟨known₂ ++ [⟨name, w⟩],
      recordVersion_eq_ok_iff.2 (.inr ⟨hnames ▸ hname, w, hw, rfl⟩), ?_⟩
    have huv : u = v := by
      rw [hu] at hv
      exact Except.ok.inj hv
    subst huv
    exact List.rel_append hsame (.cons ⟨rfl, BEq.trans hwd (BEq.symm hvd)⟩ .nil)

/-- What was compiled in the earlier state is compiled in the later one, if all that was recorded
is current there. -/
theorem Expands.transfer (htells : before.Tells after) {left : Nat} {enclosing : List String}
    {nodes : List Node} {known known' : List Dependency} {ops : List Op}
    (h : Expands before delimiters left enclosing nodes known ops known') :
    ∀ {final known₂ : List Dependency}, Recorded before known → known' ⊆ final →
      Recorded after final → List.Forall₂ Dependency.Same known₂ known →
      ∃ known₂', Expands after delimiters left enclosing nodes known₂ ops known₂' ∧
        List.Forall₂ Dependency.Same known₂' known' := by
  induction h with
  | nil => intro final known₂ _ _ _ hsame; exact ⟨known₂, .nil, hsame⟩
  | text _ ih =>
    intro final known₂ hk hsub hfinal hsame
    obtain ⟨known₂', h', hsame'⟩ := ih hk hsub hfinal hsame
    exact ⟨known₂', .text h', hsame'⟩
  | comment _ ih =>
    intro final known₂ hk hsub hfinal hsame
    obtain ⟨known₂', h', hsame'⟩ := ih hk hsub hfinal hsame
    exact ⟨known₂', .comment h', hsame'⟩
  | interpolation _ ih =>
    intro final known₂ hk hsub hfinal hsame
    obtain ⟨known₂', h', hsame'⟩ := ih hk hsub hfinal hsame
    exact ⟨known₂', .interpolation h', hsame'⟩
  | reference hr _ ih =>
    intro final known₂ hk hsub hfinal hsame
    obtain ⟨known₂', h', hsame'⟩ := ih hk hsub hfinal hsame
    exact ⟨known₂', .reference hr h', hsame'⟩
  | block hchildren hnodes ihc ih =>
    intro final known₂ hk hsub hfinal hsame
    obtain ⟨known₃, h₁, hsame₁⟩ := ihc hk (List.Subset.trans hnodes.subset hsub) hfinal hsame
    obtain ⟨known₄, h₂, hsame₂⟩ := ih (hchildren.recorded hk) hsub hfinal hsame₁
    exact ⟨known₄, .block h₁ h₂, hsame₂⟩
  | missing hname hrecord hsource hnodes ih =>
    intro final known₂ hk hsub hfinal hsame
    obtain ⟨hsources, known₃, hrecord', hsame₁⟩ := recordVersion_transfer htells hrecord hk
      (List.Subset.trans hnodes.subset hsub) hfinal hsame
    obtain ⟨known₄, h₂, hsame₂⟩ := ih (hk.recordVersion hrecord) hsub hfinal hsame₁
    exact ⟨known₄, .missing hname hrecord' (hsources ▸ hsource) h₂, hsame₂⟩
  | inlined hname hrecord hsource htree hbody hnodes ihb ih =>
    intro final known₂ hk hsub hfinal hsame
    have hk₁ := hk.recordVersion hrecord
    have hsub₁ := List.Subset.trans hnodes.subset hsub
    obtain ⟨hsources, known₃, hrecord', hsame₁⟩ := recordVersion_transfer htells hrecord hk
      (List.Subset.trans hbody.subset hsub₁) hfinal hsame
    obtain ⟨known₄, h₂, hsame₂⟩ := ihb hk₁ hsub₁ hfinal hsame₁
    obtain ⟨known₅, h₃, hsame₃⟩ := ih (hbody.recorded hk₁) hsub hfinal hsame₂
    exact ⟨known₅, .inlined hname hrecord' (hsources ▸ hsource) htree h₂ h₃, hsame₃⟩

end Transfer

/-! ## Which partials are recorded -/

namespace Node

mutual

/-- The names in partial tags, those inside sections counted. -/
def partialNames : Node → List String
  | .partialTag name _ _ => [name]
  | .block _ _ children _ _ _ _ => partialNamesAll children
  | _ => []

def partialNamesAll : List Node → List String
  | [] => []
  | node :: nodes => partialNames node ++ partialNamesAll nodes

end

end Node

namespace Op

mutual

/-- The names of the partials that were compiled into an instruction. -/
def inlinedNames : Op → List String
  | .inlined name _ body => name :: inlinedNamesAll body
  | .block _ body _ _ => inlinedNamesAll body
  | .inverted _ body => inlinedNamesAll body
  | _ => []

def inlinedNamesAll : List Op → List String
  | [] => []
  | op :: ops => inlinedNames op ++ inlinedNamesAll ops

end

theorem inlinedNamesAll_append_text (s : String) (ops : List Op) :
    inlinedNamesAll (Op.append [.text s] ops) = inlinedNamesAll ops := by
  cases ops with
  | nil => simp [Op.append, inlinedNamesAll, inlinedNames]
  | cons op ops => cases op <;> simp [Op.append, inlinedNamesAll, inlinedNames]

theorem inlinedNames_ofBlock (path : String) (inverted : Bool) (body : List Op) (raw : String)
    (delimiters : Delimiters) :
    inlinedNames (ofBlock path inverted body raw delimiters) = inlinedNamesAll body := by
  cases inverted <;> simp [ofBlock, inlinedNames]

end Op

/-- Compiling the partial tags `tags`, inside the partials `enclosing`, looks a name up: it is in
a tag where a partial may be opened, or in a tag of a partial that is opened. -/
inductive Consults (partials : PartialSources) (delimiters : Delimiters) :
    Nat → List String → List String → String → Prop where
  | tag {left enclosing tags name} : name ∈ tags → name ∉ enclosing →
      Consults partials delimiters (left + 1) enclosing tags name
  | inside {left enclosing tags outer source tree name} : outer ∈ tags → outer ∉ enclosing →
      partials.source outer = .ok (some source) →
      Tree.parse source.toList delimiters = .ok tree →
      Consults partials delimiters left (outer :: enclosing) (partialNamesAll tree) name →
      Consults partials delimiters (left + 1) enclosing tags name

section Names

variable {partials : PartialSources} {delimiters : Delimiters} {left : Nat}
  {enclosing : List String} {name : String}

theorem not_consults_nil : ¬ Consults partials delimiters left enclosing [] name := by
  intro h
  cases h with
  | tag h _ => cases h
  | inside h _ _ _ _ => cases h

theorem consults_append_iff {tags tags' : List String} :
    Consults partials delimiters left enclosing (tags ++ tags') name ↔
      Consults partials delimiters left enclosing tags name ∨
        Consults partials delimiters left enclosing tags' name := by
  constructor
  · intro h
    cases h with
    | tag hmem hname =>
      exact (List.mem_append.1 hmem).imp (.tag · hname) (.tag · hname)
    | inside hmem hname hsource htree hin =>
      exact (List.mem_append.1 hmem).imp (.inside · hname hsource htree hin)
        (.inside · hname hsource htree hin)
  · rintro (h | h)
    · cases h with
      | tag hmem hname => exact .tag (List.mem_append_left _ hmem) hname
      | inside hmem hname hsource htree hin =>
        exact .inside (List.mem_append_left _ hmem) hname hsource htree hin
    · cases h with
      | tag hmem hname => exact .tag (List.mem_append_right _ hmem) hname
      | inside hmem hname hsource htree hin =>
        exact .inside (List.mem_append_right _ hmem) hname hsource htree hin

theorem not_consults_reference {tag : String} (h : left = 0 ∨ tag ∈ enclosing) :
    ¬ Consults partials delimiters left enclosing [tag] name := by
  intro hc
  cases hc with
  | tag hmem hname =>
    obtain rfl := List.mem_singleton.1 hmem
    exact hname (h.resolve_left (by omega))
  | inside hmem hname _ _ _ =>
    obtain rfl := List.mem_singleton.1 hmem
    exact hname (h.resolve_left (by omega))

theorem consults_missing_iff {tag : String} (hname : tag ∉ enclosing)
    (hsource : partials.source tag = .ok none) :
    Consults partials delimiters (left + 1) enclosing [tag] name ↔ name = tag := by
  constructor
  · intro h
    cases h with
    | tag hmem _ => exact List.mem_singleton.1 hmem
    | inside hmem _ hsource' _ _ =>
      obtain rfl := List.mem_singleton.1 hmem
      rw [hsource] at hsource'
      cases hsource'
  · rintro rfl
    exact .tag (List.mem_singleton_self _) hname

theorem consults_inlined_iff {tag source : String} {tree : Tree} (hname : tag ∉ enclosing)
    (hsource : partials.source tag = .ok (some source))
    (htree : Tree.parse source.toList delimiters = .ok tree) :
    Consults partials delimiters (left + 1) enclosing [tag] name ↔
      name = tag ∨
        Consults partials delimiters left (tag :: enclosing) (partialNamesAll tree) name := by
  constructor
  · intro h
    cases h with
    | tag hmem _ => exact .inl (List.mem_singleton.1 hmem)
    | inside hmem _ hsource' htree' hin =>
      obtain rfl := List.mem_singleton.1 hmem
      rw [hsource] at hsource'
      cases hsource'
      rw [htree] at htree'
      cases htree'
      exact .inr hin
  · rintro (rfl | hin)
    · exact .tag (List.mem_singleton_self _) hname
    · exact .inside (List.mem_singleton_self _) hname hsource htree hin

/-- Exactly what was looked up is recorded. -/
theorem Expands.mem_names_iff {nodes : List Node} {known known' : List Dependency}
    {ops : List Op} (h : Expands partials delimiters left enclosing nodes known ops known') :
    name ∈ known'.map (·.name) ↔ name ∈ known.map (·.name) ∨
      Consults partials delimiters left enclosing (partialNamesAll nodes) name := by
  induction h with
  | nil => simp [partialNamesAll, not_consults_nil]
  | text _ ih | comment _ ih | interpolation _ ih =>
    rw [ih]
    simp [partialNamesAll, partialNames]
  | block _ _ ihc ih =>
    rw [ih, ihc, partialNamesAll, partialNames, consults_append_iff, or_assoc]
  | reference hr _ ih =>
    rw [ih, partialNamesAll, partialNames, consults_append_iff]
    simp [not_consults_reference hr]
  | missing hname hrecord hsource _ ih =>
    rw [ih, mem_names_of_recordVersion hrecord, partialNamesAll, partialNames,
      consults_append_iff, consults_missing_iff hname hsource, or_assoc]
  | inlined hname hrecord hsource htree _ _ ihb ih =>
    rw [ih, ihb, mem_names_of_recordVersion hrecord, partialNamesAll, partialNames,
      consults_append_iff, consults_inlined_iff hname hsource htree]
    simp only [or_assoc]

/-- What was looked up and exists is compiled into the instructions, and nothing else is. -/
theorem Expands.mem_inlinedNames_iff {nodes : List Node} {known known' : List Dependency}
    {ops : List Op} (h : Expands partials delimiters left enclosing nodes known ops known') :
    name ∈ Op.inlinedNamesAll ops ↔
      Consults partials delimiters left enclosing (partialNamesAll nodes) name ∧
        ∃ source, partials.source name = .ok (some source) := by
  induction h with
  | nil => simp [Op.inlinedNamesAll, partialNamesAll, not_consults_nil]
  | text _ ih =>
    rw [Op.inlinedNamesAll_append_text, ih]
    simp [partialNamesAll, partialNames]
  | comment _ ih =>
    rw [ih]
    simp [partialNamesAll, partialNames]
  | interpolation _ ih =>
    simp [Op.inlinedNamesAll, Op.inlinedNames, ih, partialNamesAll, partialNames]
  | block _ _ ihc ih =>
    rw [Op.inlinedNamesAll, Op.inlinedNames_ofBlock, List.mem_append, ihc, ih, partialNamesAll,
      partialNames, consults_append_iff, or_and_right]
  | reference hr _ ih =>
    rw [partialNamesAll, partialNames, consults_append_iff]
    simp [Op.inlinedNamesAll, Op.inlinedNames, ih, not_consults_reference hr]
  | missing hname hrecord hsource _ ih =>
    rw [ih, partialNamesAll, partialNames, consults_append_iff,
      consults_missing_iff hname hsource, or_and_right]
    refine ⟨.inr, ?_⟩
    rintro (⟨rfl, source, hs⟩ | h)
    · rw [hsource] at hs
      cases hs
    · exact h
  | @inlined _ _ tag _ _ _ source _ _ _ _ _ _ _ hname hrecord hsource htree _ _ ihb ih =>
    rw [Op.inlinedNamesAll, Op.inlinedNames, List.mem_append, List.mem_cons, ihb, ih,
      partialNamesAll, partialNames, consults_append_iff, consults_inlined_iff hname hsource htree,
      or_and_right, or_and_right]
    have hown : name = tag ↔ name = tag ∧ ∃ s, partials.source name = .ok (some s) := by
      refine ⟨?_, fun h => h.1⟩
      rintro rfl
      exact ⟨rfl, source, hsource⟩
    rw [← hown]

theorem Expands.source_of_consults {nodes : List Node} {known known' : List Dependency}
    {ops : List Op} (h : Expands partials delimiters left enclosing nodes known ops known') :
    Consults partials delimiters left enclosing (partialNamesAll nodes) name →
      partials.source name = .ok none ∨ ∃ source tree,
        partials.source name = .ok (some source) ∧
        Tree.parse source.toList delimiters = .ok tree := by
  induction h with
  | nil => intro hc; exact absurd hc not_consults_nil
  | text _ ih | comment _ ih | interpolation _ ih =>
    simpa [partialNamesAll, partialNames] using ih
  | block _ _ ihc ih =>
    rw [partialNamesAll, partialNames, consults_append_iff]
    exact Or.rec ihc ih
  | reference hr _ ih =>
    rw [partialNamesAll, partialNames, consults_append_iff]
    exact Or.rec (absurd · (not_consults_reference hr)) ih
  | missing hname _ hsource _ ih =>
    rw [partialNamesAll, partialNames, consults_append_iff, consults_missing_iff hname hsource]
    rintro (rfl | hc)
    · exact .inl hsource
    · exact ih hc
  | inlined hname _ hsource htree _ _ ihb ih =>
    rw [partialNamesAll, partialNames, consults_append_iff,
      consults_inlined_iff hname hsource htree]
    rintro ((rfl | hc) | hc)
    · exact .inr ⟨_, _, hsource, htree⟩
    · exact ihb hc
    · exact ih hc

end Names

/-! ## Templates -/

def PartialSources.ofList (partials : List (String × String)) : PartialSources where
  source name := .ok (partials.lookup name)
  version name := .ok ((partials.lookup name).map .ofText)

theorem PartialSources.tells_ofList {ps qs : List (String × String)}
    (h : ∀ name, ps.lookup name = Option.none ∨ ps.lookup name = qs.lookup name) :
    (PartialSources.ofList ps).Tells (PartialSources.ofList qs) := by
  intro name v w hv hw hvw
  simp only [ofList, Except.ok.injEq] at hv hw ⊢
  subst hv hw
  rcases h name with hp | hp
  · rw [hp] at hvw ⊢
    cases hq : qs.lookup name with
    | none => rfl
    | some source => simp [hq] at hvw
  · rw [hp]

def FoundMissing (partials : PartialSources) (source : String) (delimiters : Delimiters)
    (options : CompilerOptions) (name : String) : Prop :=
  ∃ tree, Tree.parse source.toList delimiters = .ok tree ∧
    Consults partials delimiters options.room [] (partialNamesAll tree) name ∧
    partials.source name = .ok none

/-- A template that is current is what compiling its source gives now. -/
theorem ofSource_of_isCurrent {source : String} {delimiters : Delimiters}
    {options : CompilerOptions} {before after : PartialSources} {t : Template}
    (htells : before.Tells after)
    (h : Template.ofSource source delimiters options before = .ok t)
    (hcurrent : t.isCurrent after = .ok true) :
    ∃ t', Template.ofSource source delimiters options after = .ok t' ∧ t'.Same t := by
  obtain ⟨tree, ops, dependencies, htree, hops, rfl⟩ := ofSource_eq_ok_iff.1 h
  obtain ⟨dependencies', hops', hsame⟩ := hops.transfer htells (by simp [Recorded])
    (List.Subset.refl _) (allCurrent_eq_true_iff.1 hcurrent) .nil
  exact ⟨_, ofSource_eq_ok_iff.2 ⟨tree, ops, dependencies', htree, hops', rfl⟩, rfl, rfl, hsame⟩

theorem isCurrent_of_ofSource {source : String} {delimiters : Delimiters}
    {options : CompilerOptions} {partials : PartialSources} {t : Template}
    (h : Template.ofSource source delimiters options partials = .ok t) :
    t.isCurrent partials = .ok true := by
  obtain ⟨tree, ops, dependencies, -, hops, rfl⟩ := ofSource_eq_ok_iff.1 h
  exact allCurrent_eq_true_iff.2 (hops.recorded (by simp [Recorded]))

/-- Staleness is told soundly. A template compiled in one state of the partials that is current
in another is what compiling gives there; it is current where it was compiled; and it records
each partial that was compiled into it or found missing once, and no others. -/
theorem isCurrent_sound {source : String} {delimiters : Delimiters} {options : CompilerOptions}
    {before after : PartialSources} {t : Template} (htells : before.Tells after)
    (h : Template.ofSource source delimiters options before = .ok t) :
    (t.isCurrent after = .ok true →
      ∃ t', Template.ofSource source delimiters options after = .ok t' ∧ t'.Same t) ∧
    t.isCurrent before = .ok true ∧
    (t.dependencies.map (·.name)).Nodup ∧
    ∀ name, name ∈ t.dependencies.map (·.name) ↔
      name ∈ Op.inlinedNamesAll t.ops ∨
        FoundMissing before source delimiters options name := by
  refine ⟨ofSource_of_isCurrent htells h, isCurrent_of_ofSource h, ?_⟩
  obtain ⟨tree, ops, dependencies, htree, hops, rfl⟩ := ofSource_eq_ok_iff.1 h
  refine ⟨hops.nodup_names List.nodup_nil, fun name => ?_⟩
  have hmissing : FoundMissing before source delimiters options name ↔
      Consults before delimiters options.room [] (partialNamesAll tree) name ∧
        before.source name = .ok none := by
    refine ⟨?_, fun h => ⟨tree, htree, h⟩⟩
    rintro ⟨tree', htree', hconsults⟩
    rw [htree] at htree'
    cases htree'
    exact hconsults
  rw [hops.mem_names_iff, hops.mem_inlinedNames_iff, hmissing, ← and_or_left]
  simp only [List.map_nil, List.not_mem_nil, false_or]
  refine ⟨fun hc => ⟨hc, ?_⟩, fun hc => hc.1⟩
  obtain hfound | ⟨text, _, hfound, -⟩ := hops.source_of_consults hc
  · exact .inr hfound
  · exact .inl ⟨text, hfound⟩

/-- Two partials that include each other, and later a third one that nothing includes. -/
theorem isCurrent_sound_added :
    let before := PartialSources.ofList [("a", "x{{>b}}"), ("b", "{{>a}}")]
    let after := PartialSources.ofList [("b", "{{>a}}"), ("a", "x{{>b}}"), ("c", "z")]
    let options : CompilerOptions := { includePartialCode := true }
    before.Tells after ∧ ∃ t, Template.ofSource "{{>a}}" .standard options before = .ok t ∧
      ((t.isCurrent after = .ok true →
          ∃ t', Template.ofSource "{{>a}}" .standard options after = .ok t' ∧ t'.Same t) ∧
        t.isCurrent before = .ok true ∧
        (t.dependencies.map (·.name)).Nodup ∧
        ∀ name, name ∈ t.dependencies.map (·.name) ↔
          name ∈ Op.inlinedNamesAll t.ops ∨ FoundMissing before "{{>a}}" .standard options name) ∧
      t.isCurrent after = .ok true := by
  intro before after options
  have htells : before.Tells after := by
    apply PartialSources.tells_ofList
    intro name
    by_cases ha : name = "a"
    · subst ha; decide
    by_cases hb : name = "b"
    · subst hb; decide
    · left
      simp [List.lookup_cons, beq_false_of_ne ha, beq_false_of_ne hb]
  obtain ⟨t, ht, hcurrent⟩ : ∃ t, Template.ofSource "{{>a}}" .standard options before = .ok t ∧
      t.isCurrent after = .ok true := exists_ok_of_check (by decide +kernel)
  exact ⟨htells, t, ht, isCurrent_sound htells ht, hcurrent⟩

end Mustache
