import Mathlib.Data.List.Induction
import Mustache.Proofs.Scanner.Run
import Mustache.Tree

/-!
# Mustache.Proofs.Tree.Balance

Which sources are templates, and what is wrong with the others.

`Balanced` says of a sequence of tags that each tag that opens a section has its close tag, with
the same path, and that sections lie inside one another or side by side. `Leaves` says which
sections a sequence leaves open. With them `Faulty` tells, from the tags of a source and from how
its scan ends, what the first offending tag is. `parse_iff` says that a source is a template just
if its scan succeeds with balanced tags, and that otherwise the error is the one that `Faulty`
tells.

Behind the relations stands a function, `opened`, which follows the open sections tag by tag.
-/

namespace Mustache

namespace Token

def opens : Token → Option String
  | .sectionOpen path | .invertedOpen path => some path
  | _ => none

def closes : Token → Option String
  | .sectionClose path => some path
  | _ => none

theorem closes_eq_some_iff {token : Token} {name : String} :
    token.closes = some name ↔ token = .sectionClose name := by
  cases token <;> simp [closes]

end Token

inductive Balanced : List SpannedToken → Prop where
  | nil : Balanced []
  | other {tag tags} : tag.token.opens = none → tag.token.closes = none → Balanced tags →
      Balanced (tag :: tags)
  | nest {opening path inside closing tags} : opening.token.opens = some path →
      Balanced inside → closing.token.closes = some path → Balanced tags →
      Balanced (opening :: (inside ++ closing :: tags))

/-- The sections that are open behind the tags, innermost first, each with its path and the place
of its tag. -/
inductive Leaves : List SpannedToken → List (String × Span) → Prop where
  | nothing {tags} : Balanced tags → Leaves tags []
  | inside {tags sections opening path more} : Leaves tags sections →
      opening.token.opens = some path → Balanced more →
      Leaves (tags ++ opening :: more) ((path, opening.span) :: sections)

/-- The path of the innermost section. -/
def innermost (sections : List (String × Span)) : Option String := sections.head?.map (·.1)

/-- What is wrong with a source that has these tags, and whose scan ends with this failure if with
any: the first tag that offends, or a section that is open at the end. -/
inductive Faulty (tags : List SpannedToken) (failure : Option Error) : Error → Prop where
  | unmatched {before tag after sections name} : tags = before ++ tag :: after →
      Leaves before sections → tag.token = .sectionClose name → innermost sections ≠ some name →
      Faulty tags failure (.unmatchedClose name (innermost sections) tag.span.start.line
        tag.span.start.column)
  | malformed {sections text fault line column} : Leaves tags sections →
      failure = some (.malformedTag text fault line column) →
      Faulty tags failure (.malformedTag text fault line column)
  | unterminated {path span sections} : failure = none → Leaves tags ((path, span) :: sections) →
      Faulty tags failure (.unterminatedSection path span.start.line span.start.column)

/-! ## Following the open sections -/

/-- The sections that are open behind a tag; there are none if the tag offends. -/
def opened (sections : List (String × Span)) (tag : SpannedToken) :
    Option (List (String × Span)) :=
  match tag.token.opens, tag.token.closes with
  | some path, _ => some ((path, tag.span) :: sections)
  | none, none => some sections
  | none, some name => if innermost sections = some name then some sections.tail else none

section Opened

variable {tag : SpannedToken} {tags : List SpannedToken} {sections : List (String × Span)}

theorem opened_of_opens {path : String} (h : tag.token.opens = some path) :
    opened sections tag = some ((path, tag.span) :: sections) := by
  simp [opened, h]

theorem opened_of_other (ho : tag.token.opens = none) (hc : tag.token.closes = none) :
    opened sections tag = some sections := by
  simp [opened, ho, hc]

theorem opened_of_closes {path : String} {span : Span} (h : tag.token.closes = some path) :
    opened ((path, span) :: sections) tag = some sections := by
  have ho : tag.token.opens = none := by
    rw [Token.closes_eq_some_iff.1 h]
    rfl
  simp [opened, ho, h, innermost]

theorem opened_eq_none_iff :
    opened sections tag = none ↔
      ∃ name, tag.token = .sectionClose name ∧ innermost sections ≠ some name := by
  cases htoken : tag.token <;> simp [opened, htoken, Token.opens, Token.closes]

theorem Balanced.foldlM_opened (h : Balanced tags) (sections : List (String × Span)) :
    tags.foldlM opened sections = some sections := by
  induction h generalizing sections with
  | nil => rfl
  | other ho hc _ ih => simp only [List.foldlM_cons, opened_of_other ho hc, Option.bind_eq_bind,
      Option.bind_some, ih]
  | nest ho _ hc _ ihi ih =>
    simp only [List.foldlM_cons, List.foldlM_append, opened_of_opens ho, opened_of_closes hc,
      Option.bind_eq_bind, Option.bind_some, ihi, ih]

theorem Leaves.foldlM_opened (h : Leaves tags sections) :
    tags.foldlM opened [] = some sections := by
  induction h with
  | nothing hb => exact hb.foldlM_opened []
  | inside _ ho hb ih =>
    simp only [List.foldlM_append, List.foldlM_cons, ih, opened_of_opens ho, Option.bind_eq_bind,
      Option.bind_some, hb.foldlM_opened]

theorem Balanced.append {more : List SpannedToken} (h : Balanced tags) (hmore : Balanced more) :
    Balanced (tags ++ more) := by
  induction h with
  | nil => exact hmore
  | other ho hc _ ih => exact .other ho hc ih
  | nest ho hi hc _ _ ih =>
    rw [List.cons_append, List.append_assoc, List.cons_append]
    exact .nest ho hi hc ih

theorem Leaves.append {more : List SpannedToken} (h : Leaves tags sections)
    (hmore : Balanced more) : Leaves (tags ++ more) sections := by
  cases h with
  | nothing hb => exact .nothing (hb.append hmore)
  | inside ht ho hb =>
    rw [List.append_assoc, List.cons_append]
    exact .inside ht ho (hb.append hmore)

theorem Leaves.balanced (h : Leaves tags []) : Balanced tags := by
  cases h
  assumption

theorem Leaves.step {sections' : List (String × Span)} (h : Leaves tags sections)
    (hopened : opened sections tag = some sections') : Leaves (tags ++ [tag]) sections' := by
  cases ho : tag.token.opens with
  | some path =>
    rw [opened_of_opens ho] at hopened
    cases hopened
    exact .inside h ho .nil
  | none =>
    cases hc : tag.token.closes with
    | none =>
      rw [opened_of_other ho hc] at hopened
      cases hopened
      exact h.append (.other ho hc .nil)
    | some name =>
      cases h with
      | nothing => simp [opened, ho, hc, innermost] at hopened
      | @inside tags sections opening path more ht hopens hb =>
        simp only [opened, ho, hc, innermost, List.head?_cons, Option.map_some, Option.some.injEq,
          List.tail_cons, Option.ite_none_right_eq_some] at hopened
        obtain ⟨rfl, rfl⟩ := hopened
        rw [List.append_assoc, List.cons_append]
        exact ht.append (.nest hopens hb hc .nil)

theorem leaves_of_foldlM_opened (h : tags.foldlM opened [] = some sections) :
    Leaves tags sections := by
  induction tags using List.reverseRecOn generalizing sections with
  | nil =>
    cases h
    exact .nothing .nil
  | append_singleton tags tag ih =>
    simp only [List.foldlM_append, List.foldlM_cons, List.foldlM_nil, Option.bind_eq_bind,
      Option.bind_eq_some_iff] at h
    obtain ⟨sections', h, sections'', hopened, heq⟩ := h
    cases heq
    exact (ih h).step hopened

/-- The sections can be followed to the end, or a tag offends. -/
theorem foldlM_opened_or (tags : List SpannedToken) (sections : List (String × Span)) :
    (∃ sections', tags.foldlM opened sections = some sections') ∨
      ∃ before tag after sections', tags = before ++ tag :: after ∧
        before.foldlM opened sections = some sections' ∧ opened sections' tag = none := by
  induction tags generalizing sections with
  | nil => exact .inl ⟨sections, rfl⟩
  | cons tag tags ih =>
    cases hopened : opened sections tag with
    | none => exact .inr ⟨[], tag, tags, sections, rfl, rfl, hopened⟩
    | some sections₁ =>
      rcases ih sections₁ with ⟨sections', h⟩ | ⟨before, tag', after, sections', rfl, h, hnone⟩
      · exact .inl ⟨sections', by simp [hopened, h]⟩
      · exact .inr ⟨tag :: before, tag', after, sections', rfl, by simp [hopened, h], hnone⟩

end Opened

/-! ## Steps of nesting -/

def textNodes (text : List Char) : List Node :=
  if text.isEmpty then [] else [.text (String.ofList text)]

namespace Nesting

theorem pushText_eq (n : Nesting) (text : List Char) :
    n.pushText text = { n with nodes := textNodes text ++ n.nodes } := by
  rw [pushText, textNodes]
  split <;> rfl

/-- The nesting with the text before a tag in it. -/
def literal (n : Nesting) (item : Scanned) : Nesting :=
  { n.pushText (trimmed item.literal n.strip (item.tag.bind SpannedToken.trimmable)) with
    strip := item.claim }

theorem add_eq (n : Nesting) (source : List Char) (item : Scanned) :
    n.add source item = item.tag.elim (.ok (n.literal item)) ((n.literal item).addTag source) := by
  obtain ⟨literal, span, _ | tag⟩ := item <;> rfl

theorem of_closeSection {n n' : Nesting} {source : List Char} {name : String} {span : Span}
    (h : n.closeSection source name span = .ok n') :
    ∃ o outer, n.outer = o :: outer ∧ o.path = name ∧ n' =
      { n with
        nodes := .block name o.inverted n.nodes.reverse
          (String.ofList (Text.slice source o.opening.stop.offset span.start.offset)) o.delimiters
          o.opening span :: o.earlier
        outer := outer } := by
  rw [closeSection] at h
  split at h
  · cases h
  · rename_i o outer houter
    split at h
    · rename_i hpath
      cases h
      exact ⟨o, outer, houter, hpath, rfl⟩
    · cases h

end Nesting

/-! ## The open sections of a nesting -/

namespace Nesting

variable {n : Nesting} {source : List Char} {tag : SpannedToken} {items : List Scanned}

def sections (n : Nesting) : List (String × Span) := n.outer.map fun o => (o.path, o.opening)

theorem sections_literal (n : Nesting) (item : Scanned) :
    (n.literal item).sections = n.sections := by
  rw [literal, pushText_eq]
  rfl

theorem innermost_sections : innermost n.sections = n.outer.head?.map (·.path) := by
  cases h : n.outer <;> simp [innermost, sections, h]

theorem addTag_of_opened (source : List Char) {after : List (String × Span)}
    (h : opened n.sections tag = some after) :
    ∃ n', n.addTag source tag = .ok n' ∧ n'.sections = after := by
  obtain ⟨token, span, standalone⟩ := tag
  cases token with
  | sectionClose name =>
    simp only [opened, Token.opens, Token.closes, innermost_sections,
      Option.ite_none_right_eq_some] at h
    obtain ⟨hname, hafter⟩ := h
    obtain rfl := Option.some.inj hafter
    cases houter : n.outer with
    | nil => simp [houter] at hname
    | cons o outer =>
      have hpath : o.path = name := by simpa [houter] using hname
      simp only [addTag, closeSection, houter, hpath, if_true]
      exact ⟨_, rfl, by simp [sections, houter]⟩
  | _ =>
    obtain rfl := Option.some.inj h
    exact ⟨_, rfl, rfl⟩

theorem addTag_of_offends {name : String} (htoken : tag.token = .sectionClose name)
    (h : innermost n.sections ≠ some name) :
    n.addTag source tag = .error (unmatched name (innermost n.sections) tag.span) := by
  rw [innermost_sections] at h ⊢
  rw [addTag, htoken]
  cases houter : n.outer with
  | nil => simp [closeSection, houter]
  | cons o outer =>
    have hpath : ¬ o.path = name := by simpa [houter] using h
    simp [closeSection, houter, hpath]

theorem addAll_of_opened (source : List Char) {after : List (String × Span)}
    (h : (Scanned.tags items).foldlM opened n.sections = some after) :
    ∃ n', n.addAll source items = .ok n' ∧ n'.sections = after := by
  induction items generalizing n with
  | nil =>
    cases h
    exact ⟨n, rfl, rfl⟩
  | cons item items ih =>
    rw [← sections_literal n item] at h
    rw [addAll, add_eq]
    obtain ⟨literal, span, _ | tag⟩ := item
    · exact ih h
    · rw [Scanned.tags_some, List.foldlM_cons, Option.bind_eq_bind, Option.bind_eq_some_iff] at h
      obtain ⟨between, hopened, h⟩ := h
      obtain ⟨n₁, haddTag, rfl⟩ := addTag_of_opened source hopened
      rw [Option.elim_some, haddTag]
      exact ih h

theorem addAll_of_offends {before after : List SpannedToken} {sections' : List (String × Span)}
    {name : String} (hsplit : Scanned.tags items = before ++ tag :: after)
    (h : before.foldlM opened n.sections = some sections')
    (htoken : tag.token = .sectionClose name) (hname : innermost sections' ≠ some name) :
    n.addAll source items = .error (unmatched name (innermost sections') tag.span) := by
  induction items generalizing n before with
  | nil => simp at hsplit
  | cons item items ih =>
    rw [← sections_literal n item] at h
    rw [addAll, add_eq]
    obtain ⟨literal, span, _ | first⟩ := item
    · exact ih hsplit h
    · rw [Scanned.tags_some] at hsplit
      rw [Option.elim_some]
      cases before with
      | nil =>
        obtain ⟨rfl, -⟩ := List.cons.inj hsplit
        cases h
        rw [addTag_of_offends htoken hname]
      | cons second before =>
        obtain ⟨rfl, hrest⟩ := List.cons.inj hsplit
        rw [List.foldlM_cons, Option.bind_eq_bind, Option.bind_eq_some_iff] at h
        obtain ⟨between, hopened, h⟩ := h
        obtain ⟨n₁, haddTag, rfl⟩ := addTag_of_opened source hopened
        rw [haddTag]
        exact ih hrest h

theorem close_of_sections {path : String} {span : Span} {outer : List (String × Span)}
    (h : n.sections = (path, span) :: outer) :
    n.close = .error (.unterminatedSection path span.start.line span.start.column) := by
  cases houter : n.outer with
  | nil => simp [sections, houter] at h
  | cons o os =>
    simp only [sections, houter, List.map_cons, List.cons.injEq, Prod.mk.injEq] at h
    obtain ⟨⟨rfl, rfl⟩, -⟩ := h
    simp only [close, houter]

theorem close_of_nil (h : n.sections = []) : n.close = .ok n.nodes.reverse := by
  have houter : n.outer = [] := List.map_eq_nil_iff.1 h
  simp only [close, houter]

end Nesting

/-! ## Parsing -/

section Parse

variable {source : List Char} {pair : UsableDelimiters} {items : List Scanned}
  {failure : Option Error}

/-- What parsing gives, from how the scan ends and what has been nested. -/
def parsed (failure : Option Error) : Except Error Nesting → Except Error Tree
  | .error e => .error e
  | .ok n => failure.elim n.close .error

theorem Scans.parse_eq (h : Scans [] pair source items failure) :
    Tree.parse source pair.val =
      parsed failure ((Nesting.initial pair.val).addAll source items) := by
  have hitems : (Scanner.ofUsable source pair).items = (items, failure) := h.items_eq
  rw [Tree.parse, Scanner.ofSource_val]
  simp only [hitems]
  cases (Nesting.initial pair.val).addAll source items <;> cases failure <;> rfl

/-- A template is what has been nested at the end of a scan, with no section open. -/
theorem nested_of_parse {tree : Tree} (h : Tree.parse source pair.val = .ok tree) :
    ∃ items n, Scans [] pair source items none ∧
      (Nesting.initial pair.val).addAll source items = .ok n ∧ n.outer = [] ∧
      tree = n.nodes.reverse := by
  obtain ⟨items, failure, hscans⟩ := scans_total [] pair source
  rw [hscans.parse_eq] at h
  cases hadd : (Nesting.initial pair.val).addAll source items with
  | error e =>
    rw [hadd] at h
    cases h
  | ok n =>
    rw [hadd] at h
    cases failure with
    | some e => cases h
    | none =>
      simp only [parsed, Option.elim_none, Nesting.close] at h
      split at h
      case h_2 => cases h
      case h_1 houter =>
      cases h
      exact ⟨items, n, hscans, hadd, houter, rfl⟩

theorem Scans.failure_malformed {scanned rest : List Char} {e : Error}
    (h : Scans scanned pair rest items failure) (hfailure : failure = some e) :
    ∃ text fault line column, e = .malformedTag text fault line column := by
  induction h with
  | done => cases hfailure
  | trailing => cases hfailure
  | tag _ _ _ ih => exact ih hfailure
  | malformed =>
    cases hfailure
    exact ⟨_, _, _, _, rfl⟩
  | unclosed =>
    cases hfailure
    exact ⟨_, _, _, _, rfl⟩

theorem parse_of_balanced (hscans : Scans [] pair source items none)
    (h : Balanced (Scanned.tags items)) : ∃ tree, Tree.parse source pair.val = .ok tree := by
  obtain ⟨n, haddAll, hsections⟩ :=
    Nesting.addAll_of_opened (n := .initial pair.val) source (h.foldlM_opened [])
  rw [hscans.parse_eq, haddAll]
  exact ⟨n.nodes.reverse, Nesting.close_of_nil hsections⟩

theorem parse_of_faulty {e : Error} (hscans : Scans [] pair source items failure)
    (h : Faulty (Scanned.tags items) failure e) : Tree.parse source pair.val = .error e := by
  rw [hscans.parse_eq]
  cases h with
  | unmatched hsplit hleaves htoken hname =>
    have hoffends : (Nesting.initial pair.val).addAll source items = .error _ :=
      Nesting.addAll_of_offends hsplit hleaves.foldlM_opened htoken hname
    rw [hoffends]
    rfl
  | malformed hleaves hfailure =>
    obtain ⟨n, haddAll, -⟩ := Nesting.addAll_of_opened (n := .initial pair.val) source
      hleaves.foldlM_opened
    rw [haddAll, hfailure]
    rfl
  | unterminated hfailure hleaves =>
    obtain ⟨n, haddAll, hsections⟩ := Nesting.addAll_of_opened (n := .initial pair.val) source
      hleaves.foldlM_opened
    rw [haddAll, hfailure]
    exact Nesting.close_of_sections hsections

theorem balanced_or_faulty (hscans : Scans [] pair source items failure) :
    (failure = none ∧ Balanced (Scanned.tags items)) ∨
      ∃ e, Faulty (Scanned.tags items) failure e := by
  rcases foldlM_opened_or (Scanned.tags items) [] with ⟨sections, h⟩ |
    ⟨before, tag, after, sections, hsplit, h, hnone⟩
  · have hleaves := leaves_of_foldlM_opened h
    cases hfailure : failure with
    | some e =>
      obtain ⟨text, fault, line, column, rfl⟩ := hscans.failure_malformed hfailure
      exact .inr ⟨_, .malformed hleaves rfl⟩
    | none =>
      cases sections with
      | nil => exact .inl ⟨rfl, hleaves.balanced⟩
      | cons first outer => exact .inr ⟨_, .unterminated rfl hleaves⟩
  · obtain ⟨name, htoken, hname⟩ := opened_eq_none_iff.1 hnone
    exact .inr ⟨_, .unmatched hsplit (leaves_of_foldlM_opened h) htoken hname⟩

/-- A source is a template just if its scan succeeds with balanced tags; otherwise the error tells
the first tag that offends, or the innermost section that is open at the end. -/
theorem parse_iff (source : List Char) (pair : UsableDelimiters) :
    let scan := (Scanner.ofUsable source pair).items
    ((∃ tree, Tree.parse source pair.val = .ok tree) ↔
      scan.2 = none ∧ Balanced (Scanned.tags scan.1)) ∧
    ∀ e, Tree.parse source pair.val = .error e ↔ Faulty (Scanned.tags scan.1) scan.2 e := by
  intro scan
  have hscans : Scans [] pair source scan.1 scan.2 := items_eq_iff.1 rfl
  have hok : scan.2 = none ∧ Balanced (Scanned.tags scan.1) →
      ∃ tree, Tree.parse source pair.val = .ok tree := by
    rintro ⟨hnone, hbalanced⟩
    exact parse_of_balanced (hnone ▸ hscans) hbalanced
  refine ⟨⟨?_, hok⟩, fun e => ⟨?_, parse_of_faulty hscans⟩⟩
  · rintro ⟨tree, htree⟩
    refine (balanced_or_faulty hscans).resolve_right ?_
    rintro ⟨e, he⟩
    rw [parse_of_faulty hscans he] at htree
    cases htree
  · intro he
    rcases balanced_or_faulty hscans with hbalanced | ⟨e', he'⟩
    · obtain ⟨tree, htree⟩ := hok hbalanced
      rw [he] at htree
      cases htree
    · rw [parse_of_faulty hscans he'] at he
      cases he
      exact he'

end Parse

end Mustache
