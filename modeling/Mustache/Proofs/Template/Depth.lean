import Mustache.Proofs.Template.Inclusion

/-!
# Mustache.Proofs.Template.Depth

How deep partials lie in one another when they are compiled in.

`Op.Inside` follows an instruction down to where it stands, with the partials around it. No partial
lies in itself and at most `maxPartialDepth` lie in one another; just the tags for which that leaves
no room stay references (`Expands.fits`). So compiling ends with a template of this shape whatever
the partials include, or with the error of what it had to read (`ofSource_fits`).
-/

namespace Mustache

open Node

namespace Op

def body : Op → List Op
  | .block _ body _ _ | .inverted _ body | .inlined _ _ body => body
  | _ => []

def entered : Op → List String
  | .inlined name _ _ => [name]
  | _ => []

/-- An instruction stands in these instructions, inside the partials `names`, innermost first. -/
inductive Inside : List Op → List String → Op → Prop where
  | here {ops op} : op ∈ ops → Inside ops [] op
  | under {ops outer names op} : outer ∈ ops → Inside outer.body names op →
      Inside ops (names ++ outer.entered) op

/-- Inside the partials `names`, a partial is compiled in where it may be, and else is not. -/
def Fits (names : List String) : Op → Prop
  | .inlined name _ _ => name ∉ names ∧ names.length < maxPartialDepth
  | .partialRef name _ => name ∈ names ∨ names.length = maxPartialDepth
  | _ => True

section Inside

variable {ops : List Op} {names : List String} {op first : Op}

theorem not_inside_nil : ¬ Inside [] names op := by
  rintro (h | ⟨h, -⟩) <;> cases h

theorem inside_cons (h : Inside (first :: ops) names op) :
    (names = [] ∧ op = first) ∨
      (∃ inner, names = inner ++ first.entered ∧ Inside first.body inner op) ∨
      Inside ops names op := by
  cases h with
  | here h =>
    rcases List.mem_cons.1 h with rfl | h
    · exact .inl ⟨rfl, rfl⟩
    · exact .inr (.inr (.here h))
  | under h hbody =>
    rcases List.mem_cons.1 h with rfl | h
    · exact .inr (.inl ⟨_, rfl, hbody⟩)
    · exact .inr (.inr (.under h hbody))

theorem inside_text_cons {s : String} (h : Inside (.text s :: ops) names op) :
    (names = [] ∧ op = .text s) ∨ Inside ops names op := by
  rcases inside_cons h with h | ⟨inner, -, hinner⟩ | h
  · exact .inl h
  · exact (not_inside_nil hinner).elim
  · exact .inr h

/-- A text in front is its own instruction, or is put together with the text behind it. -/
theorem inside_append_text {s : String} (h : Inside (Op.append [.text s] ops) names op) :
    (names = [] ∧ ∃ s', op = .text (s ++ s') ∧ (s' = "" ∨ Inside ops [] (.text s'))) ∨
      Inside ops names op := by
  have hfront {more : List Op} (h : Inside (.text s :: more) names op) :
      (names = [] ∧ ∃ s', op = .text (s ++ s') ∧ (s' = "" ∨ Inside more [] (.text s'))) ∨
        Inside more names op := by
    rcases inside_text_cons h with ⟨hnames, rfl⟩ | h
    · exact .inl ⟨hnames, "", by rw [String.append_empty], .inl rfl⟩
    · exact .inr h
  cases ops with
  | nil => exact hfront h
  | cons first ops =>
    cases first with
    | text s' =>
      rcases inside_text_cons h with ⟨hnames, rfl⟩ | h
      · exact .inl ⟨hnames, s', rfl, .inr (.here List.mem_cons_self)⟩
      · refine .inr ?_
        cases h with
        | here hmem => exact .here (List.mem_cons_of_mem _ hmem)
        | under hmem hbody => exact .under (List.mem_cons_of_mem _ hmem) hbody
    | _ => exact hfront h

@[simp] theorem body_ofBlock (path : String) (inverted : Bool) (body : List Op) (raw : String)
    (delimiters : Delimiters) : (ofBlock path inverted body raw delimiters).body = body := by
  cases inverted <;> rfl

@[simp] theorem entered_ofBlock (path : String) (inverted : Bool) (body : List Op) (raw : String)
    (delimiters : Delimiters) : (ofBlock path inverted body raw delimiters).entered = [] := by
  cases inverted <;> rfl

theorem fits_ofBlock (path : String) (inverted : Bool) (body : List Op) (raw : String)
    (delimiters : Delimiters) (names : List String) :
    (ofBlock path inverted body raw delimiters).Fits names := by
  cases inverted <;> trivial

end Inside

end Op

/-- `P` is true of the instructions and of all inside of them. -/
def Op.All (P : Op → Prop) (ops : List Op) : Prop := ∀ names op, Op.Inside ops names op → P op

namespace Op.All

variable {P : Op → Prop} {op : Op} {ops : List Op}

theorem head (h : Op.All P (op :: ops)) : P op := h [] op (.here List.mem_cons_self)

theorem body (h : Op.All P (op :: ops)) : Op.All P op.body :=
  fun _ op' hin => h _ op' (.under List.mem_cons_self hin)

theorem tail (h : Op.All P (op :: ops)) : Op.All P ops := by
  intro names op' hin
  cases hin with
  | here hmem => exact h _ _ (.here (List.mem_cons_of_mem _ hmem))
  | under hmem hbody => exact h _ _ (.under (List.mem_cons_of_mem _ hmem) hbody)

theorem nil : Op.All P [] := fun _ _ hin => (Op.not_inside_nil hin).elim

theorem cons (hop : P op) (hbody : Op.All P op.body) (hops : Op.All P ops) :
    Op.All P (op :: ops) := by
  intro names op' hin
  rcases Op.inside_cons hin with ⟨-, rfl⟩ | ⟨inner, -, hinner⟩ | hin
  · exact hop
  · exact hbody inner op' hinner
  · exact hops names op' hin

theorem of_flat (h : ∀ op ∈ ops, op.body = [] ∧ P op) : Op.All P ops := by
  induction ops with
  | nil => exact nil
  | cons op ops ih =>
    rw [List.forall_mem_cons] at h
    exact cons h.1.2 (h.1.1 ▸ nil) (ih h.2)

theorem append_text {s : String} (htext : ∀ s', s' = "" ∨ P (.text s') → P (.text (s ++ s')))
    (hops : Op.All P ops) : Op.All P (Op.append [.text s] ops) := by
  intro names op' hin
  rcases Op.inside_append_text hin with ⟨-, s', rfl, hs'⟩ | hin
  · exact htext s' (hs'.imp_right (hops [] _))
  · exact hops names op' hin

end Op.All

/-- Partials that lie in one another: none of them twice, and no more than there may be. -/
structure Chain (names : List String) : Prop where
  nodup : names.Nodup
  length_le : names.length ≤ maxPartialDepth

section Shape

variable {partials : PartialSources} {delimiters : Delimiters} {enclosing : List String}

theorem Expands.fits {left : Nat} {nodes : List Node} {known known' : List Dependency}
    {ops : List Op} (h : Expands partials delimiters left enclosing nodes known ops known')
    (hroom : left + enclosing.length = maxPartialDepth) (hnodup : enclosing.Nodup)
    {names : List String} {op : Op} (hin : Op.Inside ops names op) :
    Chain (names ++ enclosing) ∧ op.Fits (names ++ enclosing) := by
  have hchain : Chain enclosing := ⟨hnodup, by omega⟩
  induction h generalizing names op with
  | nil => exact (Op.not_inside_nil hin).elim
  | text _ ih =>
    rcases Op.inside_append_text hin with ⟨rfl, s', rfl, -⟩ | hin
    · exact ⟨hchain, trivial⟩
    · exact ih hroom hnodup hin hchain
  | comment _ ih => exact ih hroom hnodup hin hchain
  | interpolation _ ih =>
    rcases Op.inside_cons hin with ⟨rfl, rfl⟩ | ⟨inner, -, hinner⟩ | hin
    · exact ⟨hchain, trivial⟩
    · exact (Op.not_inside_nil hinner).elim
    · exact ih hroom hnodup hin hchain
  | block _ _ ihc ih =>
    rcases Op.inside_cons hin with ⟨rfl, rfl⟩ | ⟨inner, rfl, hinner⟩ | hin
    · exact ⟨hchain, Op.fits_ofBlock ..⟩
    · rw [Op.entered_ofBlock, List.append_nil]
      rw [Op.body_ofBlock] at hinner
      exact ihc hroom hnodup hinner hchain
    · exact ih hroom hnodup hin hchain
  | reference hr _ ih =>
    rcases Op.inside_cons hin with ⟨rfl, rfl⟩ | ⟨inner, -, hinner⟩ | hin
    · exact ⟨hchain, hr.elim (fun h => .inr (by simp only [List.nil_append]; omega)) .inl⟩
    · exact (Op.not_inside_nil hinner).elim
    · exact ih hroom hnodup hin hchain
  | missing _ _ _ _ ih => exact ih hroom hnodup hin hchain
  | inlined hname _ _ _ _ _ ihb ih =>
    rcases Op.inside_cons hin with ⟨rfl, rfl⟩ | ⟨inner, rfl, hinner⟩ | hin
    · exact ⟨hchain, hname, by simp only [List.nil_append]; omega⟩
    · rw [List.append_assoc]
      exact ihb (by simp only [List.length_cons]; omega) (List.nodup_cons.2 ⟨hname, hnodup⟩) hinner
        ⟨List.nodup_cons.2 ⟨hname, hnodup⟩, by simp only [List.length_cons]; omega⟩
    · exact ih hroom hnodup hin hchain

/-- Compiling with the partials in the code ends, whatever they include. It fails with the error of
the source, or of a partial that it had to read. Otherwise each partial tag has become what its
partial compiles to, or nothing if that is missing, apart from those inside of their own partial and
inside `maxPartialDepth` others. -/
theorem ofSource_fits {options : CompilerOptions} (hon : options.includePartialCode = true)
    (source : String) (delimiters : Delimiters) (partials : PartialSources) :
    (∃ error, Template.ofSource source delimiters options partials = .error error ∧
      (Tree.parse source.toList delimiters = .error error ∨
        ∃ tree name, Tree.parse source.toList delimiters = .ok tree ∧
          Consults partials delimiters maxPartialDepth [] (partialNamesAll tree) name ∧
          partials.Fails delimiters name error)) ∨
    ∃ tree t, Template.ofSource source delimiters options partials = .ok t ∧
      Tree.parse source.toList delimiters = .ok tree ∧
      Expands partials delimiters maxPartialDepth [] tree [] t.ops t.dependencies ∧
      ∀ names op, Op.Inside t.ops names op → Chain names ∧ op.Fits names := by
  have hroom : options.room = maxPartialDepth := by rw [CompilerOptions.room, if_pos hon]
  cases htree : Tree.parse source.toList delimiters with
  | error error =>
    exact .inl ⟨error, by rw [Template.ofSource, htree], .inl rfl⟩
  | ok tree =>
    simp only [Template.ofSource, htree, Tree.compile, lowerInlined_room, hroom]
    cases h : lowerAll (lowerInlined partials delimiters maxPartialDepth []) tree [] with
    | error error =>
      obtain ⟨name, hconsults, hfails⟩ := exists_consulted_of_lowerAll _ h
      exact .inl ⟨error, rfl, .inr ⟨tree, name, rfl, hconsults, hfails⟩⟩
    | ok lowered =>
      have hops := lowerAll_eq_ok_iff.1 h
      refine .inr ⟨tree, _, rfl, rfl, hops, fun names op hin => ?_⟩
      have hfits := hops.fits rfl .nil hin
      rwa [List.append_nil] at hfits

end Shape

/-- Two partials that include each other. -/
theorem ofSource_fits_cycle :
    let partials := PartialSources.ofList
      [("a", "\x7b\x7b#s\x7d\x7d{{>b}}\x7b\x7b/s\x7d\x7d"), ("b", "{{>a}}")]
    let options : CompilerOptions := { includePartialCode := true }
    options.includePartialCode = true ∧ ∃ t,
      Template.ofSource "{{>a}}" .standard options partials = .ok t ∧
      Op.inlinedNamesAll t.ops = ["a", "b"] ∧
      ∀ names op, Op.Inside t.ops names op → Chain names ∧ op.Fits names := by
  intro partials options
  obtain ⟨t, ht, hnames⟩ : ∃ t,
      Template.ofSource "{{>a}}" .standard options partials = .ok t ∧
        Op.inlinedNamesAll t.ops = ["a", "b"] := exists_ok_of_check (by decide +kernel)
  have hon : options.includePartialCode = true := rfl
  obtain ⟨error, herror, -⟩ | ⟨tree, t', ht', -, -, hfits⟩ :=
    ofSource_fits hon "{{>a}}" .standard partials
  · rw [ht] at herror
    cases herror
  · rw [ht] at ht'
    cases ht'
    exact ⟨hon, t, ht, hnames, hfits⟩

end Mustache
